import Kengen.Authz.Write
import Kengen.BatchCheck.Answers
import Kengen.BottomUp.Exclusion
import Kengen.BottomUp.SetOperations
import Kengen.Check.Cache
import Kengen.Check.LostFailures
import Kengen.Check.Reachability
import Kengen.Check.Reducers
import Kengen.ClassicExpand.Exact
import Kengen.Condition.Addresses
import Kengen.Condition.Evaluable
import Kengen.Condition.Numeric
import Kengen.Deploy.Environment
import Kengen.Graph.ConditionErrors
import Kengen.Identity.Encoding
import Kengen.Invalidation.Snapshots
import Kengen.ListUsers.Answers
import Kengen.Memory.Changes
import Kengen.Model.Flatten
import Kengen.ReverseExpand.Answers
import Kengen.ReverseExpand.SentOnce
import Kengen.Storage.Bounded
import Kengen.Storage.LockKeys
import Kengen.Storage.Ordering
import Kengen.Storage.SharedReads
import Kengen.Typesystem.Cycles
import Kengen.Typesystem.EntrypointsExact
