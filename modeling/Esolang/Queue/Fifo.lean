/-! First-in first-out queues of words. A queue knows what its reader falls back on when it is
empty, but leaves the falling back to the machine that owns the register and the input. -/

namespace Esolang.Queue

/-- What reading an empty queue yields. -/
inductive Fallback where
  | constant (value : Int64)
  /-- The value of the machine's register. -/
  | register
  /-- The first value after refilling the queue from the rest of the input. -/
  | drainInput
  deriving DecidableEq

/-- A queue in two halves, so that both ends are at hand. -/
structure Fifo where
  /-- The older values, the oldest first. -/
  front : List Int64 := []
  /-- The newer values, the newest first. -/
  back : List Int64 := []
  onGet : Fallback
  onPeek : Fallback

namespace Fifo

/-- The values, the oldest first. -/
def toList (q : Fifo) : List Int64 := q.front ++ q.back.reverse

def size (q : Fifo) : Nat := q.front.length + q.back.length

def isEmpty (q : Fifo) : Bool := q.front.isEmpty && q.back.isEmpty

def put (q : Fifo) (value : Int64) : Fifo := { q with back := value :: q.back }

def extend (q : Fifo) (values : List Int64) : Fifo := values.foldl put q

def pop? (q : Fifo) : Option (Int64 × Fifo) :=
  match q.front with
  | value :: front => some (value, { q with front })
  | [] =>
    match q.back.reverse with
    | value :: front => some (value, { q with front, back := [] })
    | [] => none

def front? (q : Fifo) : Option Int64 := q.front.head?.or q.back.getLast?

@[simp] theorem toList_put (q : Fifo) (value : Int64) :
    (q.put value).toList = q.toList ++ [value] := by
  simp [toList, put]

@[simp] theorem toList_extend (q : Fifo) (values : List Int64) :
    (q.extend values).toList = q.toList ++ values := by
  induction values generalizing q with
  | nil => simp [extend]
  | cons value values ih =>
    have h := ih (q.put value)
    simp only [extend] at h ⊢
    simp [h]

theorem size_eq (q : Fifo) : q.size = q.toList.length := by
  simp [size, toList]

theorem front?_eq (q : Fifo) : q.front? = q.toList.head? := by
  obtain ⟨front, back, _, _⟩ := q
  cases front <;> simp [front?, toList]

theorem pop?_map_toList (q : Fifo) :
    (q.pop?.map fun r => r.1 :: r.2.toList) = if q.toList = [] then none else some q.toList := by
  obtain ⟨front, back, onGet, onPeek⟩ := q
  cases front with
  | cons value front => simp [pop?, toList]
  | nil =>
    cases h : back.reverse with
    | nil => simp [pop?, toList, h]
    | cons value front => simp [pop?, toList, h]

end Fifo

end Esolang.Queue
