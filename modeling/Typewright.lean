import Typewright.Main
import Typewright.Proofs.GoImports
import Typewright.Proofs.NestedMessages
import Typewright.Proofs.DistinctTypes
import Typewright.Proofs.TypeScriptImports
import Typewright.Proofs.DocumentScope
import Typewright.Proofs.SiftedImports
import Typewright.Proofs.DefinitionNames
import Typewright.Proofs.OpenLoads
import Typewright.Proofs.VisitedOnce
import Typewright.Proofs.UsedReferences
import Typewright.Proofs.DistinctNames
import Typewright.Proofs.IndexExports
import Typewright.Proofs.WrittenFiles
import Typewright.Proofs.DescribedCode
import Typewright.Proofs.MapFields
import Typewright.Proofs.TypeMeaning
import Typewright.Proofs.AddressFormats
import Typewright.Proofs.DataClassOrder
import Typewright.Proofs.NamedClasses
import Typewright.Proofs.MemberNames
import Typewright.Proofs.StructTags
import Typewright.Proofs.FieldNames
