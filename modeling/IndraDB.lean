import IndraDB.Run
import IndraDB.Graph
import IndraDB.Traversal.Machine
import IndraDB.Traversal.Slot
import IndraDB.Traversal.Loop
import IndraDB.Traversal.Pagination
import IndraDB.Traversal.Completeness
import IndraDB.Traversal.Orchestrator
import IndraDB.Client.Error
import IndraDB.Client.BulkInsert
import IndraDB.Client.Calls
import IndraDB.Legacy.ClientTransaction
