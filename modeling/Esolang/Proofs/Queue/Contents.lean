import Mathlib.Logic.Function.Basic
import Esolang.Queue.Machine

/-! What an ABCR program sees of its machine: a register, three lists and the streams, with what each
list yields when it is empty. The machine keeps its queues in two halves and resolves fallbacks that
are stored with them; its instructions do to its contents what they do to such lists. -/

namespace Esolang.Queue

structure Contents where
  register : Int64
  queues : QueueName → List Int64
  input : Source
  output : Sink

namespace Contents

def setRegister (value : Int64) (d : Contents) : Contents := { d with register := value }

def setQueue (name : QueueName) (values : List Int64) (d : Contents) : Contents :=
  { d with queues := Function.update d.queues name values }

def front (name : QueueName) (d : Contents) : Int64 :=
  match d.queues name, name with
  | value :: _, _ => value
  | [], .a => 0
  | [], .b => 1
  | [], .c => d.register

def peek (name : QueueName) : Call Contents Error Int64 := .ofFunction fun d => (.ok (d.front name), d)

/-- Takes the oldest value of a queue. If it is empty, A and B make up a value, and C first gets the
codes of the rest of the input. -/
def take (name : QueueName) : Call Contents Error Int64 :=
  .ofFunction fun d =>
    match d.queues name, name with
    | value :: rest, _ => (.ok value, d.setQueue name rest)
    | [], .a => (.ok 0, d)
    | [], .b => (.ok 1, d)
    | [], .c =>
      let (text, result, input) := d.input.readAll
      match result, text.map fun c => Int64.ofInt c.toNat with
      | .error e, codes => (.error (.stream e), { d.setQueue .c codes with input })
      | .ok (), value :: rest => (.ok value, { d.setQueue .c rest with input })
      | .ok (), [] => (.error (.fault .endOfInput), { d with input })

def readSigned : Call Contents Error Int64 :=
  .ofFunction fun d =>
    let (text, result, input) := d.input.readWhile Machine.isNumeric
    (match result with
      | .ok () => .ok ((Decimal.int64? text).getD 0)
      | .error e => .error (.stream e),
      { d with input })

def onOutput (call : Call Sink Error Unit) : Call Contents Error Unit :=
  .onPart Contents.output (fun d output => { d with output }) call

def perform : Instruction → Call Contents Error Unit
  | .dequeue name => do modify (setRegister (← take name))
  | .enqueue name => modify fun d => d.setQueue name (d.queues name ++ [d.register])
  | .peek name => do modify (setRegister (← peek name))
  | .length name => modify fun d => d.setRegister (.ofInt (d.queues name).length)
  | .add name => do
    let value ← take name
    modify fun d => d.setRegister (d.register + value)
  | .sub name => do
    let value ← take name
    modify fun d => d.setRegister (d.register - value)
  | .printNumber name => do onOutput (Sink.writeNumber (← peek name))
  | .printChar name => do onOutput (Sink.writeCode (← peek name).toInt)
  | .decrement => modify fun d => d.setRegister (d.register - 1)
  | .increment => modify fun d => d.setRegister (d.register + 1)
  | .readSigned => do modify (setRegister (← readSigned))
  | .loop _ _ | .endLoop _ | .nop => pure ()

theorem setQueue_self {name : QueueName} {values : List Int64} {d : Contents}
    (h : d.queues name = values) : d.setQueue name values = d := by
  subst h
  simp [Contents.setQueue]

end Contents

namespace Fifo

theorem fallbacks_extend (q : Fifo) (values : List Int64) :
    (q.extend values).onGet = q.onGet ∧ (q.extend values).onPeek = q.onPeek := by
  induction values generalizing q with
  | nil => exact ⟨rfl, rfl⟩
  | cons value values ih => exact ih (q.put value)

theorem pop?_eq_none {q : Fifo} (h : q.pop? = none) : q.toList = [] := by
  have hh := q.pop?_map_toList
  rw [h] at hh
  by_contra hne
  simp [hne] at hh

theorem pop?_eq_some {q rest : Fifo} {value : Int64} (h : q.pop? = some (value, rest)) :
    q.toList = value :: rest.toList ∧ rest.onGet = q.onGet ∧ rest.onPeek = q.onPeek := by
  have hh := q.pop?_map_toList
  rw [h] at hh
  refine ⟨?_, ?_⟩
  · by_cases hne : q.toList = []
    · simp [hne] at hh
    · simpa [hne] using hh.symm
  · obtain ⟨front, back, onGet, onPeek⟩ := q
    cases front with
    | cons first front =>
      obtain ⟨-, rfl⟩ := Prod.mk.inj (Option.some.inj h)
      exact ⟨rfl, rfl⟩
    | nil =>
      cases hb : back.reverse with
      | nil => simp [pop?, hb] at h
      | cons first front =>
        simp only [pop?, hb, Option.some.injEq, Prod.mk.injEq] at h
        obtain ⟨-, rfl⟩ := h
        exact ⟨rfl, rfl⟩

end Fifo

namespace Machine

def contents (m : Machine) : Contents :=
  ⟨m.register, fun name => (m.queue name).toList, m.input, m.output⟩

/-- The queues have the fallbacks that a new machine gives them. -/
def Standard (m : Machine) : Prop :=
  (m.a.onGet = .constant 0 ∧ m.a.onPeek = .constant 0) ∧
  (m.b.onGet = .constant 1 ∧ m.b.onPeek = .constant 1) ∧
  m.c.onGet = .drainInput ∧ m.c.onPeek = .register

theorem standard_new (register : Int64) (input : Source) (output : Sink) :
    Standard { register, input, output } := ⟨⟨rfl, rfl⟩, ⟨rfl, rfl⟩, rfl, rfl⟩

theorem contents_new (register : Int64) (input : Source) (output : Sink) :
    contents { register, input, output } = ⟨register, fun _ => [], input, output⟩ := by
  have hq : (fun name : QueueName => (queue { register, input, output } name).toList) =
      fun _ => [] := by
    funext name
    cases name <;> rfl
  simp only [contents, hq]

/-- What no instruction outside loop control changes. -/
def Keeps (m t : Machine) : Prop := t.program = m.program ∧ t.pc = m.pc ∧ t.Standard

theorem Keeps.trans {m t u : Machine} (h : m.Keeps t) (h' : t.Keeps u) : m.Keeps u :=
  ⟨h'.1.trans h.1, h'.2.1.trans h.2.1, h'.2.2⟩

/-- A call on the machine does to its contents what another call does to contents. -/
def Follows {α : Type} (call : Call Machine Error α) (spec : Call Contents Error α) : Prop :=
  ∀ m : Machine, m.Standard → (call.on m).1 = (spec.on m.contents).1 ∧
    (call.on m).2.contents = (spec.on m.contents).2 ∧ m.Keeps (call.on m).2

theorem Follows.bind {α β : Type} {call : Call Machine Error α} {spec : Call Contents Error α}
    {f : α → Call Machine Error β} {g : α → Call Contents Error β} (h : Follows call spec)
    (hf : ∀ a, Follows (f a) (g a)) : Follows (call >>= f) (spec >>= g) := by
  intro m hm
  obtain ⟨hr, hc, hp, hk, hs⟩ := h m hm
  rcases hcall : call.on m with ⟨result, t⟩
  rcases hspec : spec.on m.contents with ⟨result', d⟩
  rw [hcall, hspec] at hr hc
  rw [hcall] at hp hk hs
  obtain rfl : result = result' := hr
  obtain rfl : t.contents = d := hc
  cases result with
  | error e => simp [hcall, hspec]; exact ⟨hp, hk, hs⟩
  | ok a =>
    obtain ⟨hr', hc', hp', hk', hs'⟩ := hf a t hs
    simp only [Call.on_bind, hcall, hspec]
    exact ⟨hr', hc', hp'.trans hp, hk'.trans hk, hs'⟩

theorem Follows.modify {f : Machine → Machine} {g : Contents → Contents}
    (h : ∀ m : Machine, m.Standard → (f m).contents = g m.contents ∧ m.Keeps (f m)) :
    Follows (modify f) (modify g) := fun m hm => ⟨rfl, (h m hm).1, (h m hm).2⟩

theorem Follows.nothing : Follows (pure ()) (pure ()) := fun _ hm => ⟨rfl, rfl, rfl, rfl, hm⟩

theorem contents_setQueue (name : QueueName) (q : Fifo) (m : Machine) :
    (m.setQueue name q).contents = m.contents.setQueue name q.toList := by
  have hq : (fun other => ((m.setQueue name q).queue other).toList) =
      Function.update (fun other => (m.queue other).toList) name q.toList := by
    funext other
    cases name <;> cases other <;> rfl
  cases name <;> simp [contents, Contents.setQueue, ← hq, setQueue]

theorem Standard.setQueue {m : Machine} (hm : m.Standard) {name : QueueName} {q : Fifo}
    (hg : q.onGet = (m.queue name).onGet) (hp : q.onPeek = (m.queue name).onPeek) :
    m.Keeps (m.setQueue name q) := by
  obtain ⟨ha, hb, hc⟩ := hm
  cases name with
  | a => exact ⟨rfl, rfl, ⟨hg.trans ha.1, hp.trans ha.2⟩, hb, hc⟩
  | b => exact ⟨rfl, rfl, ha, ⟨hg.trans hb.1, hp.trans hb.2⟩, hc⟩
  | c => exact ⟨rfl, rfl, ha, hb, hg.trans hc.1, hp.trans hc.2⟩

theorem extend_follows {m : Machine} (hm : m.Standard) (name : QueueName) (values : List Int64) :
    (m.extend name values).contents =
      m.contents.setQueue name (m.contents.queues name ++ values) ∧
    m.Keeps (m.extend name values) := by
  have hf := (m.queue name).fallbacks_extend values
  refine ⟨?_, hm.setQueue hf.1 hf.2⟩
  rw [extend, contents_setQueue, Fifo.toList_extend]
  rfl

theorem peek_follows (name : QueueName) : Follows (peek name) (Contents.peek name) := by
  intro m hm
  have hf : (m.queue name).front? = (m.contents.queues name).head? := (m.queue name).front?_eq
  obtain ⟨ha, hb, hc⟩ := hm
  cases hq : m.contents.queues name with
  | cons value rest =>
    rw [hq] at hf
    simp [peek, readQueue, hf, Contents.peek, Contents.front, hq]
    exact ⟨rfl, rfl, ha, hb, hc⟩
  | nil =>
    rw [hq] at hf
    cases name with
    | a =>
      have hp : (m.queue .a).onPeek = .constant 0 := ha.2
      simp [peek, readQueue, hf, hp, Contents.peek, Contents.front, hq]
      exact ⟨rfl, rfl, ha, hb, hc⟩
    | b =>
      have hp : (m.queue .b).onPeek = .constant 1 := hb.2
      simp [peek, readQueue, hf, hp, Contents.peek, Contents.front, hq]
      exact ⟨rfl, rfl, ha, hb, hc⟩
    | c =>
      have hp : (m.queue .c).onPeek = .register := hc.2
      simp [peek, readQueue, hf, hp, Contents.peek, Contents.front, hq]
      exact ⟨rfl, rfl, rfl, ha, hb, hc⟩

theorem take_on_nil {m : Machine} {name : QueueName} (hq : (m.queue name).pop? = none) :
    (take name).on m =
      match (m.queue name).onGet with
      | .constant value => (.ok value, m)
      | .register => (.ok m.register, m)
      | .drainInput =>
        match (drainInput name).on m with
        | (.error e, t) => (.error e, t)
        | (.ok _, t) =>
          match (t.queue name).pop? with
          | some (value, q) => (.ok value, t.setQueue name q)
          | none => (.error (.fault .endOfInput), t) := by
  have hn : (take? name).on m = (.ok none, m) := by simp [take?, hq]
  rcases hg : (m.queue name).onGet with value | _ | _
  · simp [take, readQueue, hn, hg]
  · simp [take, readQueue, hn, hg]
  · rcases hd : (drainInput name).on m with ⟨_ | _, t⟩
    · simp [take, readQueue, hn, hg, hd]
    · rcases ht : (t.queue name).pop? with _ | ⟨value, q⟩
      · have hn' : (take? name).on t = (.ok none, t) := by simp [take?, ht]
        simp [take, readQueue, hn, hg, hd, hn', ht]
      · have hn' : (take? name).on t = (.ok (some value), t.setQueue name q) := by
          simp [take?, ht]
        simp [take, readQueue, hn, hg, hd, hn', ht]

/-- Refilling C gives it the codes of the rest of the input, as far as that can be read. -/
theorem take_c_follows {m : Machine} (hm : m.Standard) (hp : (m.queue .c).pop? = none) :
    ((take .c).on m).1 = ((Contents.take .c).on m.contents).1 ∧
      ((take .c).on m).2.contents = ((Contents.take .c).on m.contents).2 ∧
      m.Keeps ((take .c).on m).2 := by
  have hq : m.contents.queues .c = [] := Fifo.pop?_eq_none hp
  have hg : (m.queue .c).onGet = .drainInput := hm.2.2.1
  rcases hread : m.input.readAll with ⟨text, result, input⟩
  have hread' : m.contents.input.readAll = (text, result, input) := hread
  obtain ⟨codes, hcodes⟩ : ∃ codes, codes = text.map fun c => Int64.ofInt c.toNat := ⟨_, rfl⟩
  obtain ⟨hc, hk⟩ := extend_follows hm .c codes
  rw [hq, List.nil_append] at hc
  obtain ⟨t, ht⟩ : ∃ t, t = { m.extend .c codes with input } := ⟨_, rfl⟩
  have hd : (drainInput .c).on m = (result.mapError .stream, t) := by
    simp [drainInput, hread, ← hcodes, ht]
  have hct : t.contents = { m.contents.setQueue .c codes with input } := by
    rw [← hc, ht]
    rfl
  have hkt : m.Keeps t := ht ▸ hk
  have hl : t.contents.queues .c = codes := by
    rw [hct]
    simp [Contents.setQueue]
  rw [take_on_nil hp, hg]
  cases result with
  | error e =>
    have hfails : (drainInput .c).on m = (.error (.stream e), t) := hd
    simp [hfails, Contents.take, hq, hread', ← hcodes, hct, hkt]
  | ok _ =>
    have hsucceeds : (drainInput .c).on m = (.ok (), t) := hd
    rcases hpop : (t.queue .c).pop? with _ | ⟨value, q⟩
    · have hnil : codes = [] := hl ▸ Fifo.pop?_eq_none hpop
      rw [hnil] at hcodes hct
      simp [hsucceeds, Contents.take, hq, hread', ← hcodes, hct, hkt, hpop,
        Contents.setQueue_self hq]
    · obtain ⟨hl', hg', hk'⟩ := Fifo.pop?_eq_some hpop
      have hcons : codes = value :: q.toList := hl ▸ hl'
      rw [hcons] at hcodes hct
      have hkq : m.Keeps (t.setQueue .c q) := hkt.trans (hkt.2.2.setQueue hg' hk')
      simp [hsucceeds, Contents.take, hq, hread', ← hcodes, hct, hkq, hpop, contents_setQueue]
      simp [Contents.setQueue]

theorem take_follows (name : QueueName) : Follows (take name) (Contents.take name) := by
  intro m hm
  rcases hp : (m.queue name).pop? with _ | ⟨value, q⟩
  · have hq : m.contents.queues name = [] := Fifo.pop?_eq_none hp
    obtain ⟨ha, hb, hc⟩ := hm
    cases name with
    | a =>
      have hg : (m.queue .a).onGet = .constant 0 := ha.1
      rw [take_on_nil hp, hg]
      simp [Contents.take, hq]
      exact ⟨rfl, rfl, ha, hb, hc⟩
    | b =>
      have hg : (m.queue .b).onGet = .constant 1 := hb.1
      rw [take_on_nil hp, hg]
      simp [Contents.take, hq]
      exact ⟨rfl, rfl, ha, hb, hc⟩
    | c => exact take_c_follows ⟨ha, hb, hc⟩ hp
  · obtain ⟨hl, hg, hk⟩ := Fifo.pop?_eq_some hp
    have hq : m.contents.queues name = value :: q.toList := hl
    have ht : (take? name).on m = (.ok (some value), m.setQueue name q) := by simp [take?, hp]
    simp [take, readQueue, ht, Contents.take, hq, contents_setQueue, hm.setQueue hg hk]

theorem readSigned_follows : Follows readSigned Contents.readSigned :=
  fun _ hm => ⟨rfl, rfl, rfl, rfl, hm⟩

theorem onOutput_follows (call : Call Sink Error Unit) :
    Follows (onOutput call) (Contents.onOutput call) := fun _ hm => ⟨rfl, rfl, rfl, rfl, hm⟩

theorem setRegister_follows (f : Contents → Int64) {g : Machine → Int64}
    (h : ∀ m, g m = f m.contents) :
    Follows (modify fun m => m.setRegister (g m)) (modify fun d => d.setRegister (f d)) := by
  refine .modify fun m hm => ⟨?_, rfl, rfl, hm⟩
  rw [h]
  rfl

theorem perform_follows (instruction : Instruction) :
    Follows (perform instruction) (Contents.perform instruction) := by
  cases instruction with
  | dequeue name => exact (take_follows name).bind fun value => setRegister_follows _ fun _ => rfl
  | enqueue name => exact .modify fun m hm => extend_follows hm name [m.register]
  | peek name => exact (peek_follows name).bind fun value => setRegister_follows _ fun _ => rfl
  | length name =>
    refine setRegister_follows (fun d => .ofInt (d.queues name).length) fun m => ?_
    rw [Fifo.size_eq]
    rfl
  | add name =>
    exact (take_follows name).bind fun value =>
      setRegister_follows (fun d => d.register + value) fun _ => rfl
  | sub name =>
    exact (take_follows name).bind fun value =>
      setRegister_follows (fun d => d.register - value) fun _ => rfl
  | printNumber name => exact (peek_follows name).bind fun value => onOutput_follows _
  | printChar name => exact (peek_follows name).bind fun value => onOutput_follows _
  | decrement => exact setRegister_follows (fun d => d.register - 1) fun _ => rfl
  | increment => exact setRegister_follows (fun d => d.register + 1) fun _ => rfl
  | readSigned => exact readSigned_follows.bind fun value => setRegister_follows _ fun _ => rfl
  | loop _ _ => exact .nothing
  | endLoop _ => exact .nothing
  | nop => exact .nothing

end Machine

end Esolang.Queue
