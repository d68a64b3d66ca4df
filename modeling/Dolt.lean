import Dolt.BranchControl.Expression
import Dolt.BranchControl.Access
import Dolt.BranchControl.Pipeline
import Dolt.Serial.Flatbuffers
import Dolt.BranchControl.Codecs
import Dolt.BranchControl.Serialize
import Dolt.Dtables.BranchControlTable
import Dolt.Dtables.RuleStore
import Dolt.Dtables.Invariants
import Dolt.Dtables.Enforcement
import Dolt.Dtables.Authorization
import Dolt.Dtables.EditorLaws
import Dolt.Dtables.CollectionIndexes
import Dolt.Nbs.BlobstoreManifest
import Dolt.Sqle.LogTableFunction
import Dolt.Sqle.LogRevisions
