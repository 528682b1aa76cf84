import TORdex.Core.Json
import TORdex.Core.Ulid
import TORdex.Lib.LogStream

/-!
# Tasks of the cluster

The task queue keeps tasks and results in Redis streams.  The payloads of tasks and their JSON texts are
parameters.
-/

namespace TORdex.Cluster

open LogStream

/-- Role a cluster node can take. -/
inductive NodeRole where
  | scheduler
  | collector
  | aiWorker
  | graphWorker
  | searchWorker
  deriving DecidableEq, Repr

namespace NodeRole

/-- The name of a role in keys. -/
def asStr : NodeRole → String
  | scheduler => "scheduler"
  | collector => "collector"
  | aiWorker => "ai"
  | graphWorker => "graph"
  | searchWorker => "search"

/-- The Redis stream of the tasks for a role. -/
def taskStream : NodeRole → String
  | scheduler => "tordex:tasks:scheduler"
  | collector => "tordex:tasks:collector"
  | aiWorker => "tordex:tasks:ai"
  | graphWorker => "tordex:tasks:graph"
  | searchWorker => "tordex:tasks:search"

end NodeRole

/-- Status of a distributed task. -/
inductive TaskStatus where
  | queued
  | running
  | completed
  | failed (error : String)
  | cancelled
  deriving DecidableEq, Repr

/-- A distributed task in the cluster. -/
structure ClusterTask (Payload : Type) where
  id : Ulid
  targetRole : NodeRole
  payload : Payload
  status : TaskStatus
  result : Option Json
  workerId : Option String
  createdAt : OffsetDateTime
  completedAt : Option OffsetDateTime
  maxRetries : ℕ
  retryCount : ℕ

namespace ClusterTask

variable {Payload : Type}

/-- The id and the time are readings. -/
def new (id : Ulid) (now : OffsetDateTime) (targetRole : NodeRole) (payload : Payload) : ClusterTask Payload :=
  ⟨id, targetRole, payload, .queued, none, none, now, none, 3, 0⟩

/-- The stream that the task is added to. -/
def streamKey (task : ClusterTask Payload) : String := task.targetRole.taskStream

end ClusterTask

/-- Result of a completed or failed task. -/
structure TaskResult where
  taskId : Ulid
  success : Bool
  data : Option Json
  error : Option String
  workerId : String
  completedAt : OffsetDateTime

namespace TaskResult

/-- The result of a completed task. -/
def ok (taskId : Ulid) (data : Json) (workerId : String) (now : OffsetDateTime) : TaskResult :=
  ⟨taskId, true, some data, none, workerId, now⟩

/-- The result of a failed task. -/
def fail (taskId : Ulid) (error workerId : String) (now : OffsetDateTime) : TaskResult :=
  ⟨taskId, false, none, some error, workerId, now⟩

end TaskResult

/-- A value in a stream entry: a string of bytes, or another reply. -/
inductive RedisValue where
  | bulkString (bytes : List UInt8)
  | other
  deriving DecidableEq

/-- The fields of a stream entry. -/
abbrev Fields := HashMap String RedisValue

/-- The bytes of a field. -/
def bulkField (field : String) (fields : Fields) : Option (List UInt8) :=
  match fields.lookup field with
  | some (.bulkString bytes) => some bytes
  | _ => none

theorem bulkField_singleton (field : String) (bytes : List UInt8) :
    bulkField field (Finmap.singleton field (.bulkString bytes)) = some bytes := by
  simp [bulkField]

/-- `serde_json` on tasks and results, and the decoding of their bytes. -/
structure Serde (Payload : Type) where
  taskToString : ClusterTask Payload → Except String (List UInt8)
  taskFromStr : List UInt8 → Except String (ClusterTask Payload)
  resultToString : TaskResult → Except String (List UInt8)
  resultFromStr : List UInt8 → Except String TaskResult

/-- A task that is read back has the id of the task that was written. -/
def Serde.KeepsTaskId {Payload : Type} (serde : Serde Payload) : Prop :=
  ∀ task bytes task', serde.taskToString task = .ok bytes → serde.taskFromStr bytes = .ok task' →
    task'.id = task.id

end TORdex.Cluster
