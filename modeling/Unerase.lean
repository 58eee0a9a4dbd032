import Unerase.Call
import Unerase.Config.Document
import Unerase.Config.Schema
import Unerase.JType.Display
import Unerase.Proofs.ClassFile.Nesting
import Unerase.Proofs.ClassTable.Limit
import Unerase.Proofs.ClassTable.Walks
import Unerase.Proofs.DisplayNames
import Unerase.Proofs.JType.VarSet
import Unerase.Proofs.Workspace.History
import Unerase.Proofs.Workspace.Locality
import Unerase.Proofs.Workspace.Memo
import Unerase.Proofs.ClassTable.Reading
import Unerase.Proofs.ClassFile.Descriptor
import Unerase.Proofs.ClassFile.Extension
import Unerase.Proofs.ClassFile.Writing
import Unerase.Proofs.Call
import Unerase.Proofs.ClassFile.Omission
import Unerase.Proofs.ClassFile.Scanning
import Unerase.Proofs.JType.Erasure
import Unerase.Proofs.ClassFile.Readings
import Unerase.Proofs.Config.Schema
