import Wikore.Lib.Transition
import Wikore.Scheduler.PartitionSweep

/-! The partitioned tables over time: the sweeps of the replicas, the rows that are inserted and
deleted between them, and the partitions that are detached and attached. -/

namespace Wikore.PartitionMaintainer

open RangePartition RangePartition.Table Catalogue

/-! ### Runs -/

inductive Action
  | sweep (opts : Options) (r : Replies)
  | insert (p : Parent) (t : Timestamptz)
  | delete (p : Parent) (gone : Option String × Timestamptz → Bool)
  | detach (p : Parent) (name : String)
  | attach (p : Parent) (q : Partition) (keys : List Timestamptz)
  | create (name : String)
  | drop (name : String)

instance (T : Rows) (q : Partition) (keys : List Timestamptz) : Decidable (T.Admits q keys) :=
  inferInstanceAs (Decidable (_ ∧ _))

/-- One transaction after the other; what the database refuses changes nothing. A partition that is
detached is a relation of its own, and may be attached again with whatever rows are in it then; one
that is dropped is gone with its rows, attached or not. -/
def step (c : Catalogue) : Action → Catalogue
  | .sweep opts r => (runOnce opts r c).catalogue
  | .insert p t => c.put p ((c.table p).insert t)
  | .delete p gone => c.put p ((c.table p).delete gone)
  | .detach p name =>
    if name ∈ (c.table p).attached.map RangePart.name then
      { c.put p ((c.table p).detach name) with relations := name :: c.relations }
    else c
  | .attach p q keys =>
    if q.name ∈ c.relations ∧ q.name ∉ parents ∧ (c.table p).Admits q keys then
      { c.put p ((c.table p).attach q keys) with relations := c.relations.filter (· ≠ q.name) }
    else c
  | .create name =>
    if name ∉ c.taken .auditLog ∧ name ∉ c.taken .usageEvents then
      { c with relations := name :: c.relations }
    else c
  | .drop name =>
    if name ∉ parents then
      ⟨c.auditLog.detach name, c.usageEvents.detach name, c.relations.filter (· ≠ name)⟩
    else c

variable {c : Catalogue}

end Wikore.PartitionMaintainer
