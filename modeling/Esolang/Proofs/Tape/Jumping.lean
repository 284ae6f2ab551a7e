import Esolang.Proofs.Tape.Matching
import Esolang.Proofs.Tape.Structured

/-! Jumps of the Brainfuck machine. Whatever calls have been made, the jump table is that of the
loaded code, so a bracket under the instruction pointer has a partner to jump to, and the pointer
never passes the end of the code. -/

namespace Esolang.Tape

theorem exists_partner {code : List Char} {table : Array (Option Nat)}
    (h : jumpTable code = .ok table) {i : Nat} {c : Char} (hc : code[i]? = some c)
    (hb : c = '[' ∨ c = ']') : ∃ j, table[i]? = some (some j) ∧ j < code.length := by
  have hr := reads_of_jumpTable h
  have hi : i < table.size := hr.size ▸ (List.getElem?_eq_some_iff.mp hc).1
  rcases he : table[i]? with _ | _ | j
  · exact absurd hi (by simpa using he)
  · rcases (hr.unpaired i c hc).mp he with hm | ⟨ho, hc⟩
    · simp at hm
    · exact absurd hb (by simp [ho, hc])
  · obtain ⟨hj, -⟩ := Array.getElem?_eq_some_iff.mp (hr.paired i j he)
    exact ⟨j, rfl, hr.size ▸ hj⟩

namespace Machine

variable {m : Machine}

/-- A newly built machine of any setting. -/
def Initial (m : Machine) : Prop := ∃ config input output, ofConfig config input output = .ok m

structure Fits (m : Machine) : Prop where
  jumps : jumpTable m.code.toList = .ok m.jumps
  ip_le : m.ip ≤ m.code.size

theorem Initial.fits (h : m.Initial) : m.Fits := by
  obtain ⟨config, input, output, h⟩ := h
  rw [ofConfig] at h
  split at h
  · obtain rfl := Except.ok.inj h
    exact ⟨rfl, Nat.le_refl 0⟩
  · cases h

namespace Fits

theorem exists_partner (h : m.Fits) {c : Char} (hc : m.code[m.ip]? = some c)
    (hb : c = '[' ∨ c = ']') :
    ∃ partner, m.jumps[m.ip]? = some (some partner) ∧ partner < m.code.size := by
  rw [← Array.getElem?_toList] at hc
  exact Tape.exists_partner h.jumps hc hb

theorem at_ip (h : m.Fits) {ip : Nat} (hip : ip ≤ m.code.size) : ({ m with ip } : Machine).Fits :=
  ⟨h.jumps, hip⟩

theorem load (h : m.Fits) (source : String) : ((load source).on m).2.Fits := by
  cases hj : jumpTable source.toList with
  | error e => simpa [Machine.load, hj, Call.on_liftM] using h
  | ok jumps => simpa [Machine.load, hj] using ⟨hj, Nat.zero_le _⟩

theorem step (h : m.Fits) : (step.on m).2.Fits := by
  cases hc : m.code[m.ip]? with
  | none => simpa [Machine.step, hc] using h
  | some c =>
    have hnext : m.ip + 1 ≤ m.code.size := (Array.getElem?_eq_some_iff.mp hc).1
    by_cases ho : c = '['
    · subst ho
      obtain ⟨partner, hj, hp⟩ := h.exists_partner hc (.inl rfl)
      rw [step_opening hc hj]
      apply h.at_ip
      split <;> omega
    · by_cases hcl : c = ']'
      · subst hcl
        obtain ⟨partner, hj, hp⟩ := h.exists_partner hc (.inr rfl)
        rw [step_closing hc hj]
        apply h.at_ip
        split <;> omega
      · have hplain : brackets.opens c = false ∧ c ≠ brackets.closer :=
          ⟨by simpa [brackets] using ho, hcl⟩
        rcases hd : ((meaning m.width).perform ⟨c, hplain⟩).on m.data with ⟨_ | _, d⟩
        · rw [step_plain_error (c := ⟨c, hplain⟩) hc hd]
          exact ⟨h.jumps, h.ip_le⟩
        · rw [step_plain (c := ⟨c, hplain⟩) hc hd]
          exact ⟨h.jumps, hnext⟩

end Fits

theorem fits_of_reachable (h : interpreter.Reachable Initial m) : m.Fits := by
  induction h with
  | initial h => exact h.fits
  | load _ source ih => exact ih.load source
  | prepare _ ih => exact ih
  | step _ ih => exact ih.step
  | finish _ ih => exact ⟨ih.jumps, ih.ip_le⟩

/-- A jump table exists exactly for balanced code. It pairs each bracket with the one that matches
it, and no reachable machine runs past the code or jumps from a bracket without a partner. -/
theorem jump_table_pairs_brackets :
    (∀ code, (∃ table, jumpTable code = .ok table) ↔ brackets.Balanced code) ∧
    (∀ code table, jumpTable code = .ok table →
      table.size = code.length ∧
      (∀ (i : Nat) c, code[i]? = some c → (table[i]? = some none ↔ c ≠ '[' ∧ c ≠ ']')) ∧
      (∀ i j : Nat, code[i]? = some '[' → (table[i]? = some (some j) ↔ Matches code i j)) ∧
      ∀ i j, Matches code i j → table[j]? = some (some i)) ∧
    ∀ m, interpreter.Reachable Initial m → m.ip ≤ m.code.size ∧
      ∀ c, m.code[m.ip]? = some c → c = '[' ∨ c = ']' →
        ∃ partner, m.jumps[m.ip]? = some (some partner) ∧ partner < m.code.size := by
  refine ⟨jumpTable_ok_iff, fun code table h => ?_, fun m hm => ?_⟩
  · have hr := reads_of_jumpTable h
    refine ⟨hr.size, fun i c hc => ?_, fun i j hi => ?_, fun i j hm => ?_⟩
    · simp [hr.unpaired i c hc]
    · constructor
      · intro hj
        obtain ⟨k, hk⟩ := exists_matches ((jumpTable_ok_iff code).mp ⟨table, h⟩) hi
        obtain rfl : k = j := by simpa [getElem?_of_matches h hk] using hj
        exact hk
      · exact getElem?_of_matches h
    · exact hr.paired i j (getElem?_of_matches h hm)
  · have hf := fits_of_reachable hm
    exact ⟨hf.ip_le, fun c hc hb => hf.exists_partner hc hb⟩

end Machine

end Esolang.Tape
