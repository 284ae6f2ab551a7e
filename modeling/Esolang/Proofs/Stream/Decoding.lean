import Mathlib.Data.List.Infix
import Esolang.Stream.Sink
import Esolang.Stream.Source

/-! Characters and their bytes. The first byte of a character announces how many bytes follow it, so
a source takes the bytes of one character at a time and stops at the first place where no character
is written. What a sink writes by codes is read back as these codes. -/

namespace Esolang

theorem toNat_lt (c : Char) : c.val.toNat < 0x110000 := by
  rcases c.valid with h | h <;> omega

theorem toInt_ofInt_toNat (c : Char) : (Int64.ofInt c.toNat).toInt = c.toNat := by
  have hc : c.toNat < 0x110000 := toNat_lt c
  exact Int64.toInt_ofInt_of_le (by omega) (by omega)

theorem decodeFirst?_eq_some_iff {bytes : List UInt8} {c : Char} :
    decodeFirst? bytes = some c ↔ String.utf8EncodeChar c <+: bytes := by
  constructor
  · intro h
    have hsplit := congrArg (fun b => b.data.toList) (ByteArray.eq_of_utf8DecodeChar?_eq_some h)
    simp only [ByteArray.data_append, Array.toList_append, List.data_toByteArray] at hsplit
    exact ⟨_, hsplit.symm⟩
  · rintro ⟨rest, rfl⟩
    exact decodeFirst?_encode c rest

/-- The bytes do not begin with those of a character. -/
def Malformed (bytes : List UInt8) : Prop := ∀ c, ¬ String.utf8EncodeChar c <+: bytes

theorem malformed_nil : Malformed [] := by
  intro c h
  exact String.utf8EncodeChar_ne_nil (List.prefix_nil.mp h)

/-- The characters written in front of malformed bytes are found in only one way. -/
theorem prefix_of_encodeText_prefix {rest : List UInt8} (h : Malformed rest)
    {text other : List Char} (hp : encodeText other <+: encodeText text ++ rest) :
    other <+: text := by
  induction other generalizing text with
  | nil => exact List.nil_prefix
  | cons c other ih =>
    rw [encodeText_cons] at hp
    have hc := (List.prefix_append _ _).trans hp
    cases text with
    | nil => exact absurd hc (h c)
    | cons d text =>
      have hd : String.utf8EncodeChar d <+: encodeText (d :: text) ++ rest :=
        ⟨encodeText text ++ rest, by simp⟩
      have hsame := (decodeFirst?_eq_some_iff.mpr hc).symm.trans (decodeFirst?_eq_some_iff.mpr hd)
      obtain rfl := Option.some.inj hsame
      rw [encodeText_cons, List.append_assoc, List.prefix_append_right_inj] at hp
      exact List.cons_prefix_cons.mpr ⟨rfl, ih hp⟩

theorem exists_malformed_rest (bytes : List UInt8) :
    ∃ text rest, bytes = encodeText text ++ rest ∧ Malformed rest := by
  induction hn : bytes.length using Nat.strongRecOn generalizing bytes with
  | _ n ih =>
    by_cases h : Malformed bytes
    · exact ⟨[], bytes, rfl, h⟩
    · obtain ⟨c, hc⟩ : ∃ c, String.utf8EncodeChar c <+: bytes := by
        simpa [Malformed] using h
      obtain ⟨behind, rfl⟩ := hc
      have hpos := List.length_pos_of_ne_nil (String.utf8EncodeChar_ne_nil (c := c))
      have hlt : behind.length < n := by
        rw [← hn, List.length_append]
        omega
      obtain ⟨text, rest, rfl, hrest⟩ := ih _ hlt behind rfl
      exact ⟨c :: text, rest, by simp, hrest⟩

theorem encodeText_injective : Function.Injective encodeText := by
  intro text other h
  have hp : other <+: text := prefix_of_encodeText_prefix malformed_nil (by simp [h])
  have hq : text <+: other := prefix_of_encodeText_prefix malformed_nil (by simp [h])
  exact hq.eq_of_length_le hp.length_le

theorem eq_of_encodeText_append_eq {rest : List UInt8} (h : Malformed rest)
    {text other : List Char} (he : encodeText text ++ rest = encodeText other) :
    text = other ∧ rest = [] := by
  have hp : other <+: text := prefix_of_encodeText_prefix h (by rw [he])
  obtain ⟨more, rfl⟩ := hp
  rw [encodeText_append, List.append_assoc] at he
  have hnil : encodeText more ++ rest = [] :=
    List.append_cancel_left (he.trans (List.append_nil _).symm)
  obtain ⟨hmore, rfl⟩ := List.append_eq_nil_iff.mp hnil
  have hempty : more = [] := encodeText_injective hmore
  rw [hempty, List.append_nil]
  exact ⟨rfl, rfl⟩

theorem exists_encodeText_iff {text : List Char} {rest : List UInt8} (h : Malformed rest) :
    (∃ valid, encodeText text ++ rest = encodeText valid) ↔ rest = [] := by
  constructor
  · rintro ⟨valid, hvalid⟩
    exact (eq_of_encodeText_append_eq h hvalid).2
  · rintro rfl
    exact ⟨text, List.append_nil _⟩

namespace Source

theorem announced?_ofNat {n : Nat} (hn : n < 256) :
    announced? (UInt8.ofNat n) =
      if n < 0x80 then some 0 else if n < 0xC0 then none else if n < 0xE0 then some 1
      else if n < 0xF0 then some 2 else if n < 0xF8 then some 3 else none := by
  simp only [announced?, UInt8.lt_iff_toNat_lt, UInt8.toNat_ofNat_of_lt' hn]
  rfl

theorem exists_announced (c : Char) :
    ∃ lead tail, String.utf8EncodeChar c = lead :: tail ∧ announced? lead = some tail.length := by
  have hc := toNat_lt c
  simp only [String.utf8EncodeChar]
  generalize c.val.toNat = n at hc
  -- one case for each length of the encoding
  obtain h | h | h | h : n ≤ 127 ∨ 127 < n ∧ n ≤ 2047 ∨ 2047 < n ∧ n ≤ 65535 ∨ 65535 < n := by
    omega
  · refine ⟨_, _, if_pos h, ?_⟩
    rw [announced?_ofNat (by omega), if_pos (by omega)]
    rfl
  · refine ⟨_, _, by rw [if_neg (by omega), if_pos h.2], ?_⟩
    rw [announced?_ofNat (by omega), if_neg (by omega), if_neg (by omega), if_pos (by omega)]
    rfl
  · refine ⟨_, _, by rw [if_neg (by omega), if_neg (by omega), if_pos h.2], ?_⟩
    rw [announced?_ofNat (by omega), if_neg (by omega), if_neg (by omega), if_neg (by omega),
      if_pos (by omega)]
    rfl
  · refine ⟨_, _, by rw [if_neg (by omega), if_neg (by omega), if_neg (by omega)], ?_⟩
    rw [announced?_ofNat (by omega), if_neg (by omega), if_neg (by omega), if_neg (by omega),
      if_neg (by omega), if_pos (by omega)]
    rfl

theorem readPiece_encode {c : Char} {lead : UInt8} {tail : List UInt8}
    (h : String.utf8EncodeChar c = lead :: tail) (failure : Option StreamError)
    (rest : List UInt8) : readPiece failure lead (tail ++ rest) = .ok c := by
  obtain ⟨first, others, hencode, hcount⟩ := exists_announced c
  obtain ⟨rfl, rfl⟩ : first = lead ∧ others = tail := by simpa [hencode] using h
  have hc : decodeFirst? (first :: others) = some c :=
    decodeFirst?_eq_some_iff.mpr (h ▸ List.prefix_rfl)
  simp [readPiece, hcount, hc]

theorem readPiece_eq_ok {failure : Option StreamError} {lead : UInt8} {rest : List UInt8} {c : Char}
    (h : readPiece failure lead rest = .ok c) :
    lead :: rest = String.utf8EncodeChar c ++ rest.drop (announced lead) := by
  obtain ⟨first, tail, hencode, hcount⟩ := exists_announced c
  cases ha : announced? lead with
  | none => simp [readPiece, ha] at h
  | some count =>
    by_cases hshort : (rest.take count).length < count
    · simp only [readPiece, ha, hshort, if_true] at h
      cases h
    · have hd : decodeFirst? (lead :: rest.take count) = some c := by
        simp only [readPiece, ha, hshort, if_false] at h
        cases hd : decodeFirst? (lead :: rest.take count) with
        | none => simp [hd] at h
        | some d =>
          rw [hd] at h
          exact congrArg some (Except.ok.inj h)
      have hp := decodeFirst?_eq_some_iff.mp hd
      rw [hencode, List.cons_prefix_cons] at hp
      obtain ⟨rfl, htail⟩ := hp
      obtain rfl : tail.length = count := by
        rw [hcount] at ha
        exact Option.some.inj ha
      obtain ⟨more, rfl⟩ := htail.trans (List.take_prefix _ _)
      simp [hencode, announced, hcount]

theorem readPiece_error {lead : UInt8} {rest : List UInt8} {e : StreamError}
    (h : readPiece none lead rest = .error e) : e = .notUtf8 := by
  simp only [readPiece] at h
  split at h
  · exact (Except.error.inj h).symm
  · split at h
    · exact (Except.error.inj h).symm
    · split at h
      · cases h
      · exact (Except.error.inj h).symm

theorem next_encode (c : Char) (rest : List UInt8) (failure : Option StreamError) :
    next.on { bytes := String.utf8EncodeChar c ++ rest, failure } =
      (.ok (some c), { bytes := rest, failure }) := by
  obtain ⟨lead, tail, hencode, hcount⟩ := exists_announced c
  have hpiece := readPiece_encode hencode failure rest
  simp [next, hencode, hpiece, announced, hcount, Except.map]

theorem next_of_malformed {bytes : List UInt8} (h : Malformed bytes) (hne : bytes ≠ []) :
    ∃ rest, next.on { bytes } = (.error .notUtf8, { bytes := rest }) := by
  obtain ⟨lead, rest, rfl⟩ := List.exists_cons_of_ne_nil hne
  refine ⟨rest.drop (announced lead), ?_⟩
  cases hpiece : readPiece none lead rest with
  | ok c =>
    refine absurd ?_ (h c)
    rw [readPiece_eq_ok hpiece]
    exact List.prefix_append _ _
  | error e =>
    obtain rfl := readPiece_error hpiece
    simp [next, hpiece, Except.map]

theorem readWhile_of_accepted {p : Char → Bool} {s t : Source} {c : Char}
    (h : next.on s = (.ok (some c), t)) (hp : p c = true) :
    s.readWhile p = (c :: (t.readWhile p).1, (t.readWhile p).2) := by
  rw [readWhile]
  split <;> simp_all

theorem readWhile_of_refused {p : Char → Bool} {s t : Source} {c : Char}
    (h : next.on s = (.ok (some c), t)) (hp : p c = false) :
    s.readWhile p = ([], .ok (), t.pushBack c) := by
  rw [readWhile]
  split <;> simp_all

theorem readWhile_of_end {s t : Source} (h : next.on s = (.ok none, t)) (p : Char → Bool) :
    s.readWhile p = ([], .ok (), t) := by
  rw [readWhile]
  split <;> simp_all

theorem readWhile_of_error {s t : Source} {e : StreamError} (h : next.on s = (.error e, t))
    (p : Char → Bool) : s.readWhile p = ([], .error e, t) := by
  rw [readWhile]
  split <;> simp_all

theorem readAll_of_char {s t : Source} {c : Char} (h : next.on s = (.ok (some c), t)) :
    s.readAll = (c :: t.readAll.1, t.readAll.2) :=
  readWhile_of_accepted h rfl

theorem readAll_of_end {s t : Source} (h : next.on s = (.ok none, t)) :
    s.readAll = ([], .ok (), t) :=
  readWhile_of_end h _

theorem readAll_of_error {s t : Source} {e : StreamError} (h : next.on s = (.error e, t)) :
    s.readAll = ([], .error e, t) :=
  readWhile_of_error h _

theorem readAll_on_bytes (text : List Char) {rest : List UInt8} (h : Malformed rest) :
    ∃ last, readAll { bytes := encodeText text ++ rest } =
      (text, if rest = [] then .ok () else .error .notUtf8, last) := by
  induction text with
  | nil =>
    by_cases hne : rest = []
    · subst hne
      exact ⟨_, readAll_of_end rfl⟩
    · obtain ⟨last, hlast⟩ := next_of_malformed h hne
      rw [if_neg hne]
      exact ⟨_, readAll_of_error hlast⟩
  | cons c text ih =>
    obtain ⟨last, hlast⟩ := ih
    have hnext := next_encode c (encodeText text ++ rest) none
    rw [← List.append_assoc, ← encodeText_cons] at hnext
    rw [readAll_of_char hnext, hlast]
    exact ⟨last, rfl⟩

end Source

/-- A code of a Unicode scalar value. -/
def IsScalar (code : Int) : Prop :=
  0 ≤ code ∧ code < 0xD800 ∨ 0xDFFF < code ∧ code < 0x110000

theorem isScalar_natCast (n : Nat) : IsScalar n ↔ n.isValidChar := by
  show _ ↔ n < 0xD800 ∨ 0xDFFF < n ∧ n < 0x110000
  unfold IsScalar
  omega

theorem scalar?_eq_none_iff (code : Int) : scalar? code = none ↔ ¬ IsScalar code := by
  cases code with
  | ofNat n =>
    show _ ↔ ¬ IsScalar (n : Int)
    rw [isScalar_natCast]
    by_cases hn : n.isValidChar
    · rw [scalar?, dif_pos hn]
      exact iff_of_false (Option.some_ne_none _) (not_not_intro hn)
    · rw [scalar?, dif_neg hn]
      exact iff_of_true rfl hn
  | negSucc n =>
    simp only [scalar?, IsScalar, true_iff]
    omega

namespace Sink

theorem writeCode_of_not_scalar {code : Int} (h : ¬ IsScalar code) (s : Sink) :
    (writeCode code).on s = (.error (.fault (.invalidCharacter code)), s) := by
  rw [writeCode, (scalar?_eq_none_iff code).mpr h]
  rfl

theorem writeCode_of_scalar {code : Int} (h : IsScalar code) {s : Sink} (hroom : s.room = none) :
    ∃ t, (writeCode code).on s = (.ok (), t) ∧ t.room = none := by
  cases hc : scalar? code with
  | none => exact absurd h ((scalar?_eq_none_iff code).mp hc)
  | some c => simp [writeCode, hc, write, fitting, hroom, Except.mapError]

theorem writeCodes_of_scalars {codes : List Int} (h : ∀ code ∈ codes, IsScalar code) {s : Sink}
    (hroom : s.room = none) : ∃ t, (forM codes writeCode).on s = (.ok (), t) := by
  induction codes generalizing s with
  | nil => exact ⟨s, rfl⟩
  | cons code codes ih =>
    obtain ⟨hcode, hcodes⟩ := List.forall_mem_cons.mp h
    obtain ⟨t, hfirst, ht⟩ := writeCode_of_scalar hcode hroom
    rw [List.forM_cons, Call.on_bind, hfirst]
    exact ih hcodes ht

theorem fitting_of_write {text : List UInt8} {s : Sink} (h : ((write text).on s).1 = .ok ()) :
    s.fitting text = text := by
  have hlength : (s.fitting text).length = text.length := by
    by_contra hne
    simp [write, hne] at h
  unfold fitting at hlength ⊢
  cases hroom : s.room with
  | none => rfl
  | some room =>
    rw [hroom] at hlength
    exact (List.take_prefix room text).eq_of_length hlength

theorem bytes_of_writeCode {code : Int} {s t : Sink} (h : (writeCode code).on s = (.ok (), t)) :
    ∃ c : Char, code = c.toNat ∧ t.bytes = s.bytes ++ String.utf8EncodeChar c := by
  cases hc : scalar? code with
  | none =>
    simp only [writeCode, hc, Call.on_throw, Prod.mk.injEq] at h
    cases h.1
  | some c =>
    refine ⟨c, scalar?_eq_some_iff.mp hc, ?_⟩
    simp only [writeCode, hc, Call.on_mapError, Prod.mk.injEq] at h
    obtain ⟨hok, rfl⟩ := h
    have hwrite : ((write (String.utf8EncodeChar c)).on s).1 = .ok () := by
      cases hr : ((write (String.utf8EncodeChar c)).on s).1 with
      | ok _ => rfl
      | error e =>
        rw [hr] at hok
        cases hok
    rw [bytes_write, fitting_of_write hwrite]

theorem bytes_of_writeCodes {codes : List Int} {s t : Sink}
    (h : (forM codes writeCode).on s = (.ok (), t)) :
    ∃ text : List Char, codes = text.map (fun c => (c.toNat : Int)) ∧
      t.bytes = s.bytes ++ encodeText text := by
  induction codes generalizing s with
  | nil =>
    obtain rfl : s = t := congrArg Prod.snd h
    exact ⟨[], rfl, by simp⟩
  | cons code codes ih =>
    rw [List.forM_cons, Call.on_bind] at h
    cases hfirst : (writeCode code).on s with
    | mk result behind =>
      rw [hfirst] at h
      cases result with
      | error e => cases h
      | ok _ =>
        obtain ⟨c, rfl, hbytes⟩ := bytes_of_writeCode hfirst
        obtain ⟨text, rfl, hrest⟩ := ih h
        exact ⟨c :: text, rfl, by simp [hrest, hbytes]⟩

end Sink

/-- Reading bytes to their end or to an error gives the longest text whose bytes they begin with,
and there is an error exactly if they go on behind it. A sink accepts the codes of scalar values,
which are read back from the bytes written for them; any other code is rejected, and nothing is
written. -/
theorem text_is_read_exactly :
    (∀ bytes : List UInt8, ∃ text result last,
      Source.readAll { bytes } = (text, result, last) ∧
      (result = .ok () ↔ ∃ valid, bytes = encodeText valid) ∧
      (∀ valid, bytes = encodeText valid → text = valid) ∧
      (result ≠ .ok () → result = .error .notUtf8) ∧
      encodeText text <+: bytes ∧ ∀ valid, encodeText valid <+: bytes → valid <+: text) ∧
    (∀ (codes : List Int) (s : Sink),
      (s.room = none → (∀ code ∈ codes, IsScalar code) →
        ∃ t, (forM codes Sink.writeCode).on s = (.ok (), t)) ∧
      ∀ t, (forM codes Sink.writeCode).on s = (.ok (), t) →
        ∃ written text last, t.bytes = s.bytes ++ written ∧
          Source.readAll { bytes := written } = (text, .ok (), last) ∧
          text.map (fun c => (c.toNat : Int)) = codes) ∧
    ∀ (code : Int) (s : Sink), ¬ IsScalar code →
      (Sink.writeCode code).on s = (.error (.fault (.invalidCharacter code)), s) := by
  refine ⟨fun bytes => ?_, fun codes s => ⟨fun hroom h => ?_, fun t h => ?_⟩, fun code s h => ?_⟩
  · obtain ⟨text, rest, rfl, hrest⟩ := exists_malformed_rest bytes
    obtain ⟨last, hread⟩ := Source.readAll_on_bytes text hrest
    refine ⟨text, _, last, hread, ?_, ?_, ?_, List.prefix_append _ _, ?_⟩
    · rw [exists_encodeText_iff hrest]
      by_cases hnil : rest = [] <;> simp [hnil]
    · exact fun valid hvalid => (eq_of_encodeText_append_eq hrest hvalid).1
    · by_cases hnil : rest = [] <;> simp [hnil]
    · exact fun valid hvalid => prefix_of_encodeText_prefix hrest hvalid
  · exact Sink.writeCodes_of_scalars h hroom
  · obtain ⟨text, rfl, hbytes⟩ := Sink.bytes_of_writeCodes h
    obtain ⟨last, hread⟩ := Source.readAll_on_bytes text malformed_nil
    rw [List.append_nil] at hread
    exact ⟨encodeText text, text, last, hbytes, hread, rfl⟩
  · exact Sink.writeCode_of_not_scalar h s

end Esolang
