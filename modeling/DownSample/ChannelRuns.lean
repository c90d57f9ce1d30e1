import DownSample.AcChannel
import DownSample.Library.Runs
import Mathlib.Data.Nat.Basic

/-! # Every operation of a channel, in any order

A channel is also asked for its size, polled, written without blocking, looked into, printed
and reset. Whatever the order of these operations, nothing is lost, duplicated or reordered:
what has entered the channel since its last reset is what has left it followed by what it
holds (`DownSample.Session.conservation`).

Its answers are those of a bounded queue as long as it holds no more than its capacity, the
number of free entries that an empty deque reports, cut to 32 bits
(`DownSample.Session.refines_queue`). A plain `write` can push a channel beyond its
capacity, where its size wraps. An `nb_write` cannot: it is refused exactly at the capacity,
so a channel without plain writes is a bounded queue in every run
(`DownSample.Session.refines_queue_polled`).
-/

namespace DownSample

open Runs

/-- What stops a run: the assertion of a read, or a position behind the end of the deque. -/
inductive ChannelFault where
  | readFromEmptyChannel
  | outOfRange (pos : BitVec 32)
deriving DecidableEq, Repr

/-- A channel with what it is reset to and the count of questions about its size. The count
is an `int`; its value is taken modulo `2 ^ 32`. -/
structure Fifo (α : Type) where
  chan : AcChannel α
  rSz : BitVec 32
  rVal : α
  sizeCallCount : BitVec 32
deriving DecidableEq

namespace Fifo

variable {α : Type}

/-- One `write` for each round of a loop that counts an `int` up to its bound or down from
it. -/
def writeLoop (c : AcChannel α) (bound : BitVec 32) (values : ℕ → α) : AcChannel α :=
  (List.range bound.toInt.toNat).foldl (fun c i => c.write (values i)) c

/-- `ac_channel()`; the reset value stays uninitialised. -/
def ofDefault (rVal : α) : Fifo α := ⟨⟨[]⟩, 0, rVal, 0⟩

/-- `ac_channel(init)`; the entries and the reset value stay uninitialised. -/
def ofInit (init : BitVec 32) (dc : ℕ → α) (rVal : α) : Fifo α :=
  ⟨writeLoop ⟨[]⟩ init dc, init, rVal, 0⟩

/-- `ac_channel(init, val)`. -/
def ofInitVal (init : BitVec 32) (val : α) : Fifo α :=
  ⟨writeLoop ⟨[]⟩ init fun _ => val, init, val, 0⟩

/-- `incr_size_call_count()`. -/
def incrSizeCallCount (c : Fifo α) : Fifo α := { c with sizeCallCount := c.sizeCallCount + 1 }

/-- `get_size_call_count()`. -/
def getSizeCallCount (c : Fifo α) : BitVec 32 × Fifo α :=
  (c.sizeCallCount, { c with sizeCallCount := 0 })

/-- `read()`. -/
def read (c : Fifo α) : Except ChannelFault (α × Fifo α) :=
  match c.chan.read with
  | some (t, rest) => .ok (t, { c with chan := rest })
  | none => .error .readFromEmptyChannel

/-- `write(t)`. -/
def write (c : Fifo α) (t : α) : Fifo α := { c with chan := c.chan.write t }

/-- `size()`. -/
def size (c : Fifo α) : ℕ × Fifo α := (c.chan.size, c.incrSizeCallCount)

/-- `empty()`. -/
def empty (c : Fifo α) : Bool × Fifo α :=
  let (size, c) := c.size
  (decide (size = 0), c)

/-- `available(k)`; `debug_size()` is the size it compares with. -/
def available (c : Fifo α) (k : BitVec 32) : Bool := c.chan.available k.toNat

/-- `debug_size()`. -/
def debugSize (c : Fifo α) : ℕ := c.chan.size

/-- `nb_read(t)`. -/
def nbRead (c : Fifo α) : Except ChannelFault (Option α × Fifo α) :=
  let (size, c) := c.size
  if size ≠ 0 then do
    let (t, c) ← c.read
    return (some t, c)
  else .ok (none, c)

/-- `num_free()` of a deque that can hold `maxSize` entries. -/
def numFree (maxSize : ℕ) (c : Fifo α) : ℕ := (maxSize - c.chan.ch.length) % 2 ^ 32

/-- `nb_write(t)`. -/
def nbWrite (maxSize : ℕ) (c : Fifo α) (t : α) : Bool × Fifo α :=
  let c := c.incrSizeCallCount
  if c.numFree maxSize ≠ 0 then (true, c.write t) else (false, c)

/-- `reset()`. -/
def reset (c : Fifo α) : Fifo α := { c with chan := writeLoop ⟨[]⟩ c.rSz fun _ => c.rVal }

/-- `operator[]`, on a deque. A position behind the end is undefined in C++; here it stops the
run. -/
def entry (c : Fifo α) (pos : BitVec 32) : Except ChannelFault α :=
  match c.chan.ch[pos.toNat]? with
  | some t => .ok t
  | none => .error (.outOfRange pos)

/-- The rounds of `operator<<` from index `i` on: the values that are printed. -/
def printFrom (c : Fifo α) (i : ℕ) : Except ChannelFault (List α × Fifo α) :=
  if i < c.size.1 then do
    let t ← c.size.2.entry (BitVec.ofNat 32 i)
    let (ts, c) ← c.size.2.printFrom (i + 1)
    return (t :: ts, c)
  else .ok ([], c.size.2)
termination_by c.chan.size - i
decreasing_by
  change c.chan.size - (i + 1) < c.chan.size - i
  have running : i < c.chan.size := by assumption
  omega

/-- `operator<<`. -/
def print (c : Fifo α) : Except ChannelFault (List α × Fifo α) := c.printFrom 0

/-- What a channel holds after a reset. -/
def restored (c : Fifo α) : List α := List.replicate c.rSz.toInt.toNat c.rVal

/-- A constructor or a reset writes one entry a round. -/
theorem ch_writeLoop (c : AcChannel α) (bound : BitVec 32) (values : ℕ → α) :
    (writeLoop c bound values).ch = c.ch ++ (List.range bound.toInt.toNat).map values := by
  rw [writeLoop]
  generalize bound.toInt.toNat = rounds
  induction rounds with
  | zero => exact (List.append_nil _).symm
  | succ rounds ih =>
      rw [List.range_succ, List.foldl_append, List.map_append, ← List.append_assoc, ← ih]
      rfl

@[simp] theorem ch_reset (c : Fifo α) : c.reset.chan.ch = c.restored := by
  rw [reset, ch_writeLoop, List.nil_append, List.map_const', List.length_range, restored]

/-- A channel that is constructed from a value starts with what it is reset to. -/
theorem ch_ofInitVal (init : BitVec 32) (val : α) :
    (ofInitVal init val).chan.ch = (ofInitVal init val).restored :=
  ch_reset (ofInitVal init val)

/-- A read with a nonzero size takes the front. -/
theorem read_of_contents {c : Fifo α} (remains : c.chan.size ≠ 0) :
    ∃ t rest, c.chan.ch = t :: rest ∧ c.read = .ok (t, { c with chan := ⟨rest⟩ }) := by
  cases taken : c.chan.read with
  | none =>
      unfold AcChannel.read at taken
      rw [if_neg remains] at taken
      cases contents : c.chan.ch with
      | nil => exact (remains (by rw [AcChannel.size, contents]; rfl)).elim
      | cons t rest => simp only [contents] at taken; cases taken
  | some front =>
      obtain ⟨t, rest⟩ := front
      refine ⟨t, rest.ch, (AcChannel.ch_of_read taken).2, ?_⟩
      rw [Fifo.read, taken]

/-- A read with size 0 stops at the assertion. -/
theorem read_of_spent {c : Fifo α} (spent : c.chan.size = 0) :
    c.read = .error .readFromEmptyChannel := by
  rw [Fifo.read, AcChannel.read_of_size _ spent]

/-- `nb_read` with a nonzero size takes the front and counts the question. -/
theorem nbRead_of_contents {c : Fifo α} (remains : c.chan.size ≠ 0) :
    ∃ t rest, c.chan.ch = t :: rest ∧
      c.nbRead = .ok (some t, { c.incrSizeCallCount with chan := ⟨rest⟩ }) := by
  obtain ⟨t, rest, contents, taken⟩ := read_of_contents (c := c.incrSizeCallCount) remains
  refine ⟨t, rest, contents, ?_⟩
  unfold nbRead
  simp only [Fifo.size, if_pos remains, taken]
  rfl

/-- `nb_read` with size 0 only counts the question. -/
theorem nbRead_of_spent {c : Fifo α} (spent : c.chan.size = 0) :
    c.nbRead = .ok (none, c.incrSizeCallCount) := by
  unfold nbRead
  simp only [Fifo.size, spent, ne_eq, not_true_eq_false, ↓reduceIte]

theorem nbWrite_of_free {maxSize : ℕ} {c : Fifo α} (t : α) (free : c.numFree maxSize ≠ 0) :
    c.nbWrite maxSize t = (true, c.incrSizeCallCount.write t) := if_pos free

theorem nbWrite_of_full {maxSize : ℕ} {c : Fifo α} (t : α) (full : ¬ c.numFree maxSize ≠ 0) :
    c.nbWrite maxSize t = (false, c.incrSizeCallCount) := if_neg full

private theorem count_succ (count : BitVec 32) (more : ℕ) :
    count + 1 + BitVec.ofNat 32 more = count + BitVec.ofNat 32 (more + 1) := by
  rw [BitVec.add_assoc, BitVec.add_comm 1, BitVec.ofNat_add]
  rfl

/-- The rounds print what is left within the size, and each asks for the size once. -/
theorem printFrom_eq {rounds i : ℕ} {c : Fifo α} (left : i + rounds = c.chan.size) :
    c.printFrom i = .ok ((c.chan.ch.take c.chan.size).drop i,
      { c with sizeCallCount := c.sizeCallCount + BitVec.ofNat 32 (rounds + 1) }) := by
  induction rounds generalizing i c with
  | zero =>
      rw [printFrom, if_neg (show ¬ i < c.size.1 from (by omega : c.chan.size ≤ i).not_gt),
        List.drop_of_length_le]
      · rfl
      · rw [List.length_take]
        omega
  | succ rounds ih =>
      have running : i < c.chan.size := by omega
      have shorter := c.chan.size_le_length
      have small : c.chan.size < 2 ^ 32 := Nat.mod_lt _ (by decide)
      have inside : i < c.chan.ch.length := by omega
      have entered : c.size.2.entry (BitVec.ofNat 32 i) = .ok c.chan.ch[i] := by
        have position : (BitVec.ofNat 32 i).toNat = i := by
          rw [BitVec.toNat_ofNat, Nat.mod_eq_of_lt (by omega)]
        rw [entry, position]
        change (match c.chan.ch[i]? with | some t => _ | none => _) = _
        rw [List.getElem?_eq_getElem inside]
      have rest := ih (c := c.size.2) (i := i + 1) (by change _ = c.chan.size; omega)
      rw [printFrom, if_pos (show i < c.size.1 from running), entered, rest]
      have first : (c.chan.ch.take c.chan.size).drop i =
          c.chan.ch[i] :: (c.chan.ch.take c.chan.size).drop (i + 1) := by
        rw [List.drop_eq_getElem_cons (by rw [List.length_take]; omega), List.getElem_take]
      rw [first, ← count_succ c.sizeCallCount (rounds + 1)]
      rfl

/-- `operator<<` prints the channel up to its size and only counts its questions. -/
theorem print_eq (c : Fifo α) :
    c.print = .ok (c.chan.ch.take c.chan.size,
      { c with sizeCallCount := c.sizeCallCount + BitVec.ofNat 32 (c.chan.size + 1) }) :=
  printFrom_eq (Nat.zero_add _)

end Fifo

/-! ## Runs -/

/-- The operations of a channel. -/
inductive ChannelOp (α : Type) where
  | read
  | nbRead
  | write (t : α)
  | nbWrite (t : α)
  | size
  | empty
  | available (k : BitVec 32)
  | reset
  | debugSize
  | getSizeCallCount
  | entry (pos : BitVec 32)
  | print
deriving DecidableEq, Repr

/-- What an operation returns. -/
inductive Answer (α : Type) where
  | done
  | value (t : α)
  | polled (t : Option α)
  | flag (b : Bool)
  | size (n : ℕ)
  | calls (n : BitVec 32)
  | printed (ts : List α)
deriving DecidableEq, Repr

/-- The operations on a deque that can hold `maxSize` entries. -/
def Fifo.perform {α : Type} (maxSize : ℕ) :
    ChannelOp α → Fifo α → Except ChannelFault (Answer α × Fifo α)
  | .read, c => do
      let (t, c) ← c.read
      return (.value t, c)
  | .nbRead, c => do
      let (t, c) ← c.nbRead
      return (.polled t, c)
  | .write t, c => .ok (.done, c.write t)
  | .nbWrite t, c => .ok (.flag (c.nbWrite maxSize t).1, (c.nbWrite maxSize t).2)
  | .size, c => .ok (.size c.size.1, c.size.2)
  | .empty, c => .ok (.flag c.empty.1, c.empty.2)
  | .available k, c => .ok (.flag (c.available k), c)
  | .reset, c => .ok (.done, c.reset)
  | .debugSize, c => .ok (.size c.debugSize, c)
  | .getSizeCallCount, c => .ok (.calls c.getSizeCallCount.1, c.getSizeCallCount.2)
  | .entry pos, c => do
      let t ← c.entry pos
      return (.value t, c)
  | .print, c => do
      let (ts, c) ← c.print
      return (.printed ts, c)

/-- A queue and the number of questions about its size since this number was read. -/
structure Queue (α : Type) where
  contents : List α
  asked : ℕ
deriving DecidableEq, Repr

namespace Queue

variable {α : Type}

/-- A question about the size. -/
def ask (q : Queue α) (times : ℕ) : Queue α := { q with asked := q.asked + times }

/-- The operations on a queue of a bounded capacity. It refuses a read of nothing and a look
behind its end. -/
def perform (capacity : ℕ) (restored : List α) :
    ChannelOp α → Queue α → Option (Answer α × Queue α)
  | .read, q =>
      match q.contents with
      | [] => none
      | t :: rest => some (.value t, { q with contents := rest })
  | .nbRead, q =>
      match q.contents with
      | [] => some (.polled none, q.ask 1)
      | t :: rest => some (.polled (some t), { q.ask 1 with contents := rest })
  | .write t, q => some (.done, { q with contents := q.contents ++ [t] })
  | .nbWrite t, q =>
      if q.contents.length < capacity then
        some (.flag true, { q.ask 1 with contents := q.contents ++ [t] })
      else some (.flag false, q.ask 1)
  | .size, q => some (.size q.contents.length, q.ask 1)
  | .empty, q => some (.flag q.contents.isEmpty, q.ask 1)
  | .available k, q => some (.flag (decide (k.toNat ≤ q.contents.length)), q)
  | .reset, q => some (.done, { q with contents := restored })
  | .debugSize, q => some (.size q.contents.length, q)
  | .getSizeCallCount, q => some (.calls (BitVec.ofNat 32 q.asked), { q with asked := 0 })
  | .entry pos, q => q.contents[pos.toNat]?.map fun t => (.value t, q)
  | .print, q => some (.printed q.contents, q.ask (q.contents.length + 1))

end Queue

/-- A channel or a queue together with the operations so far and their answers. -/
structure Session (σ α : Type) where
  state : σ
  log : List (ChannelOp α × Answer α)
deriving DecidableEq

/-- One more operation. -/
def Session.step {m : Type → Type} [Monad m] {σ α : Type}
    (perform : ChannelOp α → σ → m (Answer α × σ)) (op : ChannelOp α) (s : Session σ α) :
    m (Session σ α) := do
  let (answer, state) ← perform op s.state
  return ⟨state, s.log ++ [(op, answer)]⟩

/-! ## Nothing is lost -/

/-- What has entered a channel since its last reset, and what has left it. -/
structure Flow (α : Type) where
  entered : List α
  left : List α

/-- An operation and its answer in the flow. -/
def Flow.step {α : Type} (restored : List α) (flow : Flow α) :
    ChannelOp α × Answer α → Flow α
  | (.write t, _) => { flow with entered := flow.entered ++ [t] }
  | (.nbWrite t, .flag true) => { flow with entered := flow.entered ++ [t] }
  | (.read, .value t) => { flow with left := flow.left ++ [t] }
  | (.nbRead, .polled (some t)) => { flow with left := flow.left ++ [t] }
  | (.reset, _) => ⟨restored, []⟩
  | _ => flow

/-- What has entered has left or is still there, in its order. -/
def Flow.Balanced {α : Type} (flow : Flow α) (contents : List α) : Prop :=
  flow.entered = flow.left ++ contents

theorem Flow.Balanced.enter {α : Type} {flow : Flow α} {contents : List α}
    (balanced : flow.Balanced contents) (t : α) :
    Flow.Balanced ⟨flow.entered ++ [t], flow.left⟩ (contents ++ [t]) := by
  rw [Balanced, balanced, List.append_assoc]

theorem Flow.Balanced.leave {α : Type} {flow : Flow α} {t : α} {rest : List α}
    (balanced : flow.Balanced (t :: rest)) :
    Flow.Balanced ⟨flow.entered, flow.left ++ [t]⟩ rest := by
  rw [Balanced, balanced, List.append_assoc, List.singleton_append]

namespace Fifo

variable {α : Type} {maxSize : ℕ} {c c' : Fifo α} {answer : Answer α}

/-- An operation keeps the flow balanced, and what a reset restores. -/
theorem flow_of_perform {op : ChannelOp α} (performs : perform maxSize op c = .ok (answer, c'))
    {flow : Flow α} (balanced : flow.Balanced c.chan.ch) :
    c'.restored = c.restored ∧ (flow.step c.restored (op, answer)).Balanced c'.chan.ch := by
  cases op with
  | read =>
      by_cases spent : c.chan.size = 0
      · rw [perform, read_of_spent spent] at performs
        cases performs
      · obtain ⟨t, rest, contents, taken⟩ := read_of_contents spent
        rw [perform, taken] at performs
        cases performs
        exact ⟨rfl, (contents ▸ balanced).leave⟩
  | nbRead =>
      by_cases spent : c.chan.size = 0
      · rw [perform, nbRead_of_spent spent] at performs
        cases performs
        exact ⟨rfl, balanced⟩
      · obtain ⟨t, rest, contents, taken⟩ := nbRead_of_contents spent
        rw [perform, taken] at performs
        cases performs
        exact ⟨rfl, (contents ▸ balanced).leave⟩
  | write t =>
      cases performs
      exact ⟨rfl, balanced.enter t⟩
  | nbWrite t =>
      cases performs
      by_cases free : c.numFree maxSize ≠ 0
      · rw [nbWrite_of_free t free]
        exact ⟨rfl, balanced.enter t⟩
      · rw [nbWrite_of_full t free]
        exact ⟨rfl, balanced⟩
  | reset =>
      cases performs
      exact ⟨rfl, c.ch_reset.symm⟩
  | entry pos =>
      rw [perform] at performs
      cases entered : c.entry pos with
      | error fault =>
          rw [entered] at performs
          cases performs
      | ok t =>
          rw [entered] at performs
          cases performs
          exact ⟨rfl, balanced⟩
  | print =>
      rw [perform, print_eq] at performs
      cases performs
      exact ⟨rfl, balanced⟩
  | size | empty | available | debugSize | getSizeCallCount =>
      cases performs
      exact ⟨rfl, balanced⟩

end Fifo

/-- **Nothing is lost.** In every run of a channel, in any state and of any size, what has
entered it since its last reset is what has left it followed by what it holds. -/
theorem Session.conservation {α : Type} (maxSize : ℕ) (c : Fifo α) (ops : List (ChannelOp α))
    {s : Session (Fifo α) α} (runs : run (step (Fifo.perform maxSize)) ops ⟨c, []⟩ = .ok s) :
    s.log.map Prod.fst = ops ∧
      (s.log.foldl (Flow.step c.restored) ⟨c.chan.ch, []⟩).Balanced s.state.chan.ch := by
  suffices held : s.log.map Prod.fst = ops ∧ s.state.restored = c.restored ∧
      (s.log.foldl (Flow.step c.restored) ⟨c.chan.ch, []⟩).Balanced s.state.chan.ch from
    ⟨held.1, held.2.2⟩
  induction ops using List.reverseRecOn generalizing s with
  | nil =>
      cases runs
      exact ⟨rfl, rfl, rfl⟩
  | append_singleton ops last ih =>
      rw [run_concat] at runs
      cases before : run (step (Fifo.perform maxSize)) ops ⟨c, []⟩ with
      | error fault =>
          rw [before] at runs
          cases runs
      | ok s' =>
          rw [before] at runs
          change (Fifo.perform maxSize last s'.state >>= _) = _ at runs
          obtain ⟨made, restored, balanced⟩ := ih before
          cases performs : Fifo.perform maxSize last s'.state with
          | error fault =>
              rw [performs] at runs
              cases runs
          | ok result =>
              obtain ⟨answer, state⟩ := result
              rw [performs] at runs
              cases runs
              obtain ⟨kept, flows⟩ := Fifo.flow_of_perform performs balanced
              refine ⟨?_, kept.trans restored, ?_⟩
              · rw [List.map_append, made]
                rfl
              · rw [List.foldl_append, ← restored]
                rw [← restored] at flows
                exact flows

/-- A channel of two entries written and one of them read. -/
theorem Session.conservation_read :
    ∃ s, run (step (Fifo.perform 1)) [.write 7, .write 8, .read] ⟨Fifo.ofDefault 0, []⟩ = .ok s ∧
      (s.log.foldl (Flow.step []) ⟨[], []⟩).Balanced s.state.chan.ch :=
  ⟨_, rfl, (Session.conservation 1 (Fifo.ofDefault 0) [.write 7, .write 8, .read] rfl).2⟩

/-! ## The bounded queue -/

/-- What an empty deque reports as free. -/
def capacityOf (maxSize : ℕ) : ℕ := maxSize % 2 ^ 32

/-- A channel that holds what a queue holds. -/
structure Fifo.Agrees {α : Type} (restored : List α) (c : Fifo α) (q : Queue α) : Prop where
  contents : c.chan.ch = q.contents
  asked : c.sizeCallCount = BitVec.ofNat 32 q.asked
  restored : c.restored = restored

namespace Fifo.Agrees

variable {α : Type} {restored : List α} {c : Fifo α} {q : Queue α} {maxSize : ℕ}

theorem ask (agrees : Agrees restored c q) (times : ℕ) :
    Agrees restored { c with sizeCallCount := c.sizeCallCount + BitVec.ofNat 32 times }
      (q.ask times) where
  contents := agrees.contents
  asked := by
    rw [Queue.ask, BitVec.ofNat_add, ← agrees.asked]
  restored := agrees.restored

theorem put (agrees : Agrees restored c q) (t : α) :
    Agrees restored (c.write t) { q with contents := q.contents ++ [t] } where
  contents := by rw [Fifo.write, AcChannel.write, agrees.contents]
  asked := agrees.asked
  restored := agrees.restored

theorem take (agrees : Agrees restored c q) (rest : List α) :
    Agrees restored { c with chan := ⟨rest⟩ } { q with contents := rest } :=
  ⟨rfl, agrees.asked, agrees.restored⟩

theorem size (agrees : Agrees restored c q) (fits : q.contents.length ≤ capacityOf maxSize) :
    c.chan.size = q.contents.length := by
  have small : capacityOf maxSize < 2 ^ 32 := Nat.mod_lt _ (by decide)
  rw [AcChannel.size_of_lt _ (by rw [agrees.contents]; omega), agrees.contents]

/-- Within the capacity, an entry is free exactly below it. -/
theorem numFree (agrees : Agrees restored c q)
    (fits : q.contents.length ≤ capacityOf maxSize) :
    c.numFree maxSize ≠ 0 ↔ q.contents.length < capacityOf maxSize := by
  rw [Fifo.numFree, agrees.contents]
  unfold capacityOf at fits ⊢
  omega

end Fifo.Agrees

/-- The same answer, and what is then held agrees. -/
def Alike {α : Type} (restored : List α) (made : Answer α × Fifo α) (meant : Answer α × Queue α) :
    Prop :=
  made.1 = meant.1 ∧ made.2.Agrees restored meant.2

/-- Within the capacity, every operation on a channel is that on the queue, or asserts where
the queue refuses. -/
theorem Fifo.perform_matches {α : Type} {restored : List α} {c : Fifo α} {q : Queue α}
    {maxSize : ℕ} (agrees : c.Agrees restored q)
    (fits : q.contents.length ≤ capacityOf maxSize) (op : ChannelOp α) :
    Matches (Alike restored) (fun _ => True) (c.perform maxSize op)
      (q.perform (capacityOf maxSize) restored op) := by
  have size := agrees.size fits
  have asked := agrees.ask 1
  cases op with
  | read =>
      rw [Fifo.perform, Queue.perform]
      by_cases spent : c.chan.size = 0
      · have nothing : q.contents = [] := List.length_eq_zero_iff.mp (size.symm.trans spent)
        rw [read_of_spent spent, nothing]
        trivial
      · obtain ⟨t, rest, contents, taken⟩ := read_of_contents spent
        rw [taken, ← agrees.contents, contents]
        exact ⟨rfl, agrees.take rest⟩
  | nbRead =>
      rw [Fifo.perform, Queue.perform]
      by_cases spent : c.chan.size = 0
      · have nothing : q.contents = [] := List.length_eq_zero_iff.mp (size.symm.trans spent)
        rw [nbRead_of_spent spent, nothing]
        exact ⟨rfl, asked⟩
      · obtain ⟨t, rest, contents, taken⟩ := nbRead_of_contents spent
        rw [taken, ← agrees.contents, contents]
        exact ⟨rfl, asked.take rest⟩
  | write t => exact ⟨rfl, agrees.put t⟩
  | nbWrite t =>
      have free := agrees.numFree fits
      rw [Fifo.perform, Queue.perform]
      by_cases below : q.contents.length < capacityOf maxSize
      · rw [if_pos below, nbWrite_of_free t (free.mpr below)]
        exact ⟨rfl, asked.put t⟩
      · rw [if_neg below, nbWrite_of_full t fun some => below (free.mp some)]
        exact ⟨rfl, asked⟩
  | size => exact ⟨congrArg Answer.size size, asked⟩
  | empty =>
      refine ⟨congrArg Answer.flag ?_, asked⟩
      change decide (c.chan.size = 0) = q.contents.isEmpty
      rw [size]
      cases q.contents with
      | nil => rfl
      | cons t rest => rfl
  | available k =>
      refine ⟨congrArg Answer.flag ?_, agrees⟩
      change decide (k.toNat ≤ c.chan.size) = _
      rw [size]
  | reset => exact ⟨rfl, (c.ch_reset).trans agrees.restored, agrees.asked, agrees.restored⟩
  | debugSize => exact ⟨congrArg Answer.size size, agrees⟩
  | getSizeCallCount =>
      exact ⟨congrArg Answer.calls agrees.asked, agrees.contents, rfl, agrees.restored⟩
  | entry pos =>
      rw [Fifo.perform, Queue.perform, Fifo.entry, agrees.contents]
      cases entered : q.contents[pos.toNat]? with
      | none => trivial
      | some t => exact ⟨rfl, agrees⟩
  | print =>
      rw [Fifo.perform, Queue.perform, print_eq, size, agrees.contents, List.take_length]
      exact ⟨rfl, agrees.ask (q.contents.length + 1)⟩

/-- The queue that holds what a channel holds. -/
def Fifo.queue {α : Type} (c : Fifo α) : Queue α := ⟨c.chan.ch, c.sizeCallCount.toNat⟩

section Sessions

variable {α : Type}

/-- The queue never holds more than its capacity. -/
def Bounded (capacity : ℕ) (restored : List α) (start : Queue α) (ops : List (ChannelOp α)) :
    Prop :=
  ∀ before, before <+: ops → ∀ s,
    run (Session.step (Queue.perform capacity restored)) before ⟨start, []⟩ = some s →
      s.state.contents.length ≤ capacity

/-- A plain `write`, which does not ask for a free entry. -/
def ChannelOp.isWrite : ChannelOp α → Bool
  | .write _ => true
  | _ => false

/-- No operation is a plain `write`. -/
def Polled (ops : List (ChannelOp α)) : Prop := ∀ op ∈ ops, op.isWrite = false

instance (ops : List (ChannelOp α)) : Decidable (Polled ops) :=
  inferInstanceAs (Decidable (∀ op ∈ ops, op.isWrite = false))

theorem Polled.dropLast {ops : List (ChannelOp α)} {last : ChannelOp α}
    (polled : Polled (ops ++ [last])) : Polled ops :=
  fun op member => polled op (List.mem_append_left _ member)

/-- An operation other than a plain `write` keeps a queue within its capacity. -/
theorem Queue.length_of_perform {capacity : ℕ} {restored : List α} {q q' : Queue α}
    {answer : Answer α} {op : ChannelOp α} (polled : op.isWrite = false)
    (resets : restored.length ≤ capacity) (fits : q.contents.length ≤ capacity)
    (performs : q.perform capacity restored op = some (answer, q')) :
    q'.contents.length ≤ capacity := by
  cases op with
  | write t => cases polled
  | read =>
      rw [perform] at performs
      split at performs
      · cases performs
      · rename_i t rest contents
        cases performs
        rw [contents] at fits
        exact (Nat.le_succ _).trans fits
  | nbRead =>
      rw [perform] at performs
      split at performs
      · cases performs
        exact fits
      · rename_i t rest contents
        cases performs
        rw [contents] at fits
        exact (Nat.le_succ _).trans fits
  | nbWrite t =>
      rw [perform] at performs
      split at performs
      · rename_i below
        cases performs
        rw [List.length_append]
        exact below
      · cases performs
        exact fits
  | reset =>
      cases performs
      exact resets
  | entry pos =>
      rw [perform, Option.map_eq_some_iff] at performs
      obtain ⟨t, -, same⟩ := performs
      cases same
      exact fits
  | size | empty | available | debugSize | getSizeCallCount | print =>
      cases performs
      exact fits

/-- A queue without plain writes stays within its capacity. -/
theorem bounded_of_polled {capacity : ℕ} {restored : List α} {start : Queue α}
    {ops : List (ChannelOp α)} (polled : Polled ops) (resets : restored.length ≤ capacity)
    (fits : start.contents.length ≤ capacity) : Bounded capacity restored start ops := by
  intro before beginning s reached
  have polled : Polled before := fun op member => polled op (beginning.subset member)
  clear beginning
  induction before using List.reverseRecOn generalizing s with
  | nil =>
      cases reached
      exact fits
  | append_singleton before last ih =>
      rw [run_concat, Option.bind_eq_bind, Option.bind_eq_some_iff] at reached
      obtain ⟨between, reachedBefore, steps⟩ := reached
      rw [Session.step, Option.bind_eq_bind, Option.bind_eq_some_iff] at steps
      obtain ⟨⟨answer, state⟩, performs, same⟩ := steps
      cases same
      have other := polled last (List.mem_append_right _ (List.mem_singleton_self last))
      exact Queue.length_of_perform other resets (ih between reachedBefore polled.dropLast) performs

/-- A run of a channel has the answers and the contents of the queue's run, or stops where the
queue refuses. -/
def Session.Refines (maxSize : ℕ) (c : Fifo α) (ops : List (ChannelOp α)) : Prop :=
  (∀ meant, run (step (Queue.perform (capacityOf maxSize) c.restored)) ops ⟨c.queue, []⟩ =
      some meant →
    ∃ s, run (step (Fifo.perform maxSize)) ops ⟨c, []⟩ = .ok s ∧ s.log = meant.log ∧
      s.state.chan.ch = meant.state.contents) ∧
  (run (step (Queue.perform (capacityOf maxSize) c.restored)) ops ⟨c.queue, []⟩ = none →
    ∃ fault, run (step (Fifo.perform maxSize)) ops ⟨c, []⟩ = .error fault)

/-- The logs of both runs are the same. -/
private def Together (restored : List α) (_ : List (ChannelOp α)) (s : Session (Fifo α) α)
    (meant : Session (Queue α) α) : Prop :=
  s.log = meant.log ∧ s.state.Agrees restored meant.state

private theorem session_matches {maxSize : ℕ} {c : Fifo α} (ops : List (ChannelOp α))
    (bounded : Bounded (capacityOf maxSize) c.restored c.queue ops) :
    Matches (Together c.restored ops) (fun _ => True)
      (run (Session.step (Fifo.perform maxSize)) ops ⟨c, []⟩)
      (run (Session.step (Queue.perform (capacityOf maxSize) c.restored)) ops ⟨c.queue, []⟩) := by
  have start : c.Agrees c.restored c.queue :=
    ⟨rfl, by rw [Fifo.queue, BitVec.ofNat_toNat, BitVec.setWidth_eq], rfl⟩
  refine run_matches (Bounded (capacityOf maxSize) c.restored c.queue)
    (fun ops last bounded before beginning =>
      bounded before (beginning.trans (List.prefix_append _ _))) ⟨rfl, start⟩ ?_ ops bounded
  intro ops last s meant bounded reached ⟨logs, agrees⟩
  have fits := bounded ops (List.prefix_append _ _) meant reached
  refine (Fifo.perform_matches agrees fits last).bind ?_
  rintro ⟨answer, c'⟩ ⟨answer', q'⟩ ⟨same, agrees'⟩
  change answer = answer' at same
  subst same
  exact ⟨congrArg (· ++ [(last, answer)]) logs, agrees'⟩

private theorem refines_of_bounded {maxSize : ℕ} {c : Fifo α} {ops : List (ChannelOp α)}
    (bounded : Bounded (capacityOf maxSize) c.restored c.queue ops) :
    Session.Refines maxSize c ops := by
  have both := session_matches ops bounded
  constructor
  · intro meant reached
    rw [reached] at both
    obtain ⟨s, runs, logs, agrees⟩ := both.of_some
    exact ⟨s, runs, logs, agrees.contents⟩
  · intro refused
    rw [refused] at both
    obtain ⟨fault, faults, -⟩ := both.of_none
    exact ⟨fault, faults⟩

end Sessions

/-- **The channel as a bounded queue.** From any state, every run in which a queue of the
capacity of the channel stays within this capacity has the answers of the queue. -/
theorem Session.refines_queue {α : Type} (maxSize : ℕ) (c : Fifo α) (ops : List (ChannelOp α))
    (bounded : Bounded (capacityOf maxSize) c.restored c.queue ops) : Refines maxSize c ops :=
  refines_of_bounded bounded

/-- A channel of one entry: a refused `nb_write`, then a read of the entry and one of nothing. -/
theorem Session.refines_queue_full :
    Refines 1 (Fifo.ofDefault 0) [.nbWrite 7, .nbWrite 8, .size, .read, .read] :=
  Session.refines_queue 1 (Fifo.ofDefault 0) _
    (bounded_of_polled (by decide) (Nat.zero_le 1) (Nat.zero_le 1))

/-- **A channel without plain writes.** If neither what it holds nor what it is reset to
exceeds the capacity, every run has the answers of the bounded queue, and no run exceeds the
capacity, so the size never wraps. -/
theorem Session.refines_queue_polled {α : Type} (maxSize : ℕ) (c : Fifo α)
    (ops : List (ChannelOp α)) (polled : Polled ops)
    (resets : c.restored.length ≤ capacityOf maxSize)
    (fits : c.chan.ch.length ≤ capacityOf maxSize) :
    Refines maxSize c ops ∧
      ∀ s, run (step (Fifo.perform maxSize)) ops ⟨c, []⟩ = .ok s →
        s.state.chan.ch.length ≤ capacityOf maxSize ∧
          s.state.debugSize = s.state.chan.ch.length := by
  have bounded : Bounded (capacityOf maxSize) c.restored c.queue ops :=
    bounded_of_polled polled resets fits
  refine ⟨refines_of_bounded bounded, fun s runs => ?_⟩
  have both := session_matches ops bounded
  rw [runs] at both
  cases reached : run (step (Queue.perform (capacityOf maxSize) c.restored)) ops ⟨c.queue, []⟩ with
  | none =>
      rw [reached] at both
      exact both.elim
  | some meant =>
      rw [reached] at both
      have within := bounded ops (List.prefix_refl _) meant reached
      obtain ⟨-, agrees⟩ : s.log = meant.log ∧ s.state.Agrees c.restored meant.state := both
      rw [Fifo.debugSize, agrees.size within, agrees.contents]
      exact ⟨within, rfl⟩

/-- The run that refuses an `nb_write`, without an assumption on the run. -/
theorem Session.refines_queue_polled_full :
    Refines 1 (Fifo.ofDefault 0) [.nbWrite 7, .nbWrite 8, .size, .read, .read] :=
  (Session.refines_queue_polled 1 (Fifo.ofDefault 0) _ (by decide) (Nat.zero_le 1)
    (Nat.zero_le 1)).1

/-- **A constructed channel.** If the entries that a constructor writes fit the capacity, every
run without plain writes has the answers of the bounded queue. -/
theorem Session.refines_constructed {α : Type} (maxSize : ℕ) (init : BitVec 32) (dc : ℕ → α)
    (val : α) {ops : List (ChannelOp α)} (polled : Polled ops)
    (fits : init.toInt.toNat ≤ capacityOf maxSize) :
    Refines maxSize (Fifo.ofInit init dc val) ops ∧
      Refines maxSize (Fifo.ofInitVal init val) ops := by
  have restored : (List.replicate init.toInt.toNat val).length ≤ capacityOf maxSize := by
    rwa [List.length_replicate]
  have written : (Fifo.ofInit init dc val).chan.ch.length ≤ capacityOf maxSize := by
    rwa [Fifo.ofInit, Fifo.ch_writeLoop, List.nil_append, List.length_map, List.length_range]
  have filled : (Fifo.ofInitVal init val).chan.ch.length ≤ capacityOf maxSize :=
    Fifo.ch_ofInitVal init val ▸ restored
  exact ⟨refines_of_bounded (bounded_of_polled polled restored written),
    refines_of_bounded (bounded_of_polled polled restored filled)⟩

end DownSample
