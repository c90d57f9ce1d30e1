import Mathlib.Data.List.Basic
import Mathlib.Data.List.Induction

/-! # Memories as replayed writes

An operation on a memory writes a value to some of its cells. Replaying a list of
operations leaves in each cell the value of the last operation that wrote it, or the
initial value when none did (`Memory.replay_eq_getLast`). The cells and the values are
arbitrary; a line buffer and a picture are two instances.
-/

namespace Memory

variable {Op Cell Value : Type*}

/-- The memory after one operation, given by the value it writes to each cell. -/
def overlay (written : Cell → Option Value) (memory : Cell → Value) : Cell → Value :=
  fun cell => (written cell).getD (memory cell)

/-- The memory after a list of operations. -/
def replay (writes : Op → Cell → Option Value) (operations : List Op) (memory : Cell → Value) :
    Cell → Value :=
  operations.foldl (fun current operation => overlay (writes operation) current) memory

variable (writes : Op → Cell → Option Value) (memory : Cell → Value)

theorem replay_append (first second : List Op) :
    replay writes (first ++ second) memory = replay writes second (replay writes first memory) :=
  List.foldl_append

theorem replay_concat (operations : List Op) (operation : Op) :
    replay writes (operations ++ [operation]) memory =
      overlay (writes operation) (replay writes operations memory) :=
  replay_append writes memory operations [operation]

/-- **The last write wins.** A cell holds the last value written to it, or its initial
value. -/
theorem replay_eq_getLast (operations : List Op) (cell : Cell) :
    replay writes operations memory cell =
      ((operations.filterMap (writes · cell)).getLast?).getD (memory cell) := by
  induction operations using List.reverseRecOn with
  | nil => rfl
  | append_singleton operations operation ih =>
      rw [replay_concat, overlay, ih, List.filterMap_append]
      cases written : writes operation cell with
      | none =>
          have nothing : [operation].filterMap (writes · cell) = [] := by
            simp only [List.filterMap_cons, written, List.filterMap_nil]
          rw [nothing, List.append_nil, Option.getD_none]
      | some value =>
          have last : [operation].filterMap (writes · cell) = [value] := by
            simp only [List.filterMap_cons, written, List.filterMap_nil]
          rw [last, List.getLast?_concat, Option.getD_some, Option.getD_some]

end Memory
