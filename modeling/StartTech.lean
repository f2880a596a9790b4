import StartTech.BackupFs.Listing
import StartTech.BackupFs.PasswordChange
import StartTech.StartCore.ParserAgreement
import StartTech.Exver.Density
import StartTech.Exver.Bounds
import StartTech.Exver.Complement
import StartTech.Exver.Separators
import StartTech.JsonPtr.Operations
import StartTech.MerkleArchive.Stems
import StartTech.JsonPtr.Slices
import StartTech.JsonPtr.Setting
import StartTech.PatchDb.Serializability
import StartTech.PatchDb.Watch
import StartTech.PatchDb.ForPath
import StartTech.PatchDbClient.Agreement
import StartTech.Net.LanSwitch
import StartTech.Net.PlainExposure
import StartTech.S9pk.Growth
import StartTech.Squashfs.Composition
import StartTech.Tunnel.Separation
import StartTech.Uciedit.Exclusion
import StartTech.Uciedit.Syntax
import StartTech.StartSdk.Resumption
