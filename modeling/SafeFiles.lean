import SafeFiles.Disk.Ensure
import SafeFiles.Main
import SafeFiles.Settings.File
import SafeFiles.SpecialFolder
import SafeFiles.Proofs.DisposalLaws
import SafeFiles.Proofs.EnsureLaws
import SafeFiles.Proofs.JobLaws
import SafeFiles.Proofs.RegistryLaws
import SafeFiles.Proofs.ReleaseLaws
import SafeFiles.Proofs.SettingsCycleLaws
import SafeFiles.Proofs.SettingsTokenLaws
import SafeFiles.Proofs.SpecialFolderLaws
import SafeFiles.Proofs.Tree.EmptyingLaws
import SafeFiles.Proofs.Tree.ImageLaws
import SafeFiles.Proofs.Tree.LinkedSourceLaws
import SafeFiles.Proofs.Tree.OverlapLaws
import SafeFiles.Proofs.Tree.SizeLaws
import SafeFiles.Proofs.VacatingLaws
import SafeFiles.Proofs.WrittenDocumentLaws
