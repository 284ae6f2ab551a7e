import Esolang.Call
import Esolang.Error

/-! Structured programs: commands in a row and loops with a test in front. Running one is said
without positions and jumps, by one relation that follows the tree. -/

namespace Esolang

inductive Block (α β : Type) where
  | done
  | command (c : α) (rest : Block α β)
  | loop (test : β) (body rest : Block α β)
  deriving DecidableEq

structure Meaning (α β δ : Type) where
  perform : α → Call δ Error Unit
  passes : β → δ → Bool

namespace Block

variable {α β δ : Type}

/-- The number of places of the program in a row: a loop has one for its test and one for its end. -/
def size : Block α β → Nat
  | .done => 0
  | .command _ rest => rest.size + 1
  | .loop _ body rest => body.size + rest.size + 2

/-- Running a program on some data ends with a result, which is an error if a command failed, and
leaves data. A loop makes its test before every turn. -/
inductive Runs (μ : Meaning α β δ) : Block α β → δ → Except Error Unit → δ → Prop where
  | done {d : δ} : Runs μ .done d (.ok ()) d
  | command {c : α} {rest : Block α β} {d u t : δ} {result : Except Error Unit}
    (h : (μ.perform c).on d = (.ok (), u)) (next : Runs μ rest u result t) :
    Runs μ (.command c rest) d result t
  | fault {c : α} {rest : Block α β} {d t : δ} {e : Error}
    (h : (μ.perform c).on d = (.error e, t)) : Runs μ (.command c rest) d (.error e) t
  | leave {test : β} {body rest : Block α β} {d t : δ} {result : Except Error Unit}
    (h : μ.passes test d = false) (next : Runs μ rest d result t) :
    Runs μ (.loop test body rest) d result t
  | turn {test : β} {body rest : Block α β} {d u t : δ} {result : Except Error Unit}
    (h : μ.passes test d = true) (inside : Runs μ body d (.ok ()) u)
    (again : Runs μ (.loop test body rest) u result t) : Runs μ (.loop test body rest) d result t
  | faultInside {test : β} {body rest : Block α β} {d t : δ} {e : Error}
    (h : μ.passes test d = true) (inside : Runs μ body d (.error e) t) :
    Runs μ (.loop test body rest) d (.error e) t

end Block

end Esolang
