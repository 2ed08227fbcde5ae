import MethodAssembler.Proofs.Leb128.Codec

/-! # Reading arbitrary bytes

A reader that is set on any bytes, at any position, goes by the bytes from there up to the first one below 128. It takes
them if there are at most ten and the tenth only repeats the sign, and is behind them then, whether or not their number is
a word. Otherwise it stays where it is. -/

namespace MethodAssembler.Leb128

/-- The bytes from a position up to the first one below 128, if a reader takes them: at most ten, the tenth zero or
    `top`. -/
structure TakenAt (top : UInt8) (data : List UInt8) (pos : Nat) (form : List UInt8) : Prop where
  delimited : Delimited form
  stands : form <+: data.drop pos
  length : form.length ≤ 10
  tenth : form.length = 10 → form.getLastD 0 = 0 ∨ form.getLastD 0 = top

/-- What a reader answers at a position, and where it is then. `word` is the number of a word; the numbers of words are
    those that fit. -/
structure Answers {ν ω : Type} (top : UInt8) (value : List UInt8 → ν) (word : ω → ν) (Fits : ν → Prop) (data : List UInt8)
    (pos : Nat) (answer : Except Malformed ω × Nat) : Prop where
  ok : ∀ w stop, answer = (.ok w, stop) ↔
    ∃ form, TakenAt top data pos form ∧ Fits (value form) ∧ value form = word w ∧ stop = pos + form.length
  range : ∀ stop, answer = (.error .lebRange, stop) ↔
    ∃ form, TakenAt top data pos form ∧ ¬Fits (value form) ∧ stop = pos + form.length
  other : ∀ e stop, answer = (.error e, stop) → e ≠ .lebRange → (∀ form, ¬TakenAt top data pos form) ∧ stop = pos
  pastEnd : data.length < pos → answer = (.error .lebPastEnd, pos)
  bounded : answer.2 ≤ max pos data.length

section Taking
variable {top : UInt8} {overflow : Malformed} {data : List UInt8} {pos : Nat} {form rest : List UInt8}

theorem takeForm_error {index : Nat} {bytes : List UInt8} {e : Malformed}
    (h : takeForm top overflow index bytes = .error e) :
    e = .lebTruncated ∨ e = overflow := by
  induction bytes generalizing index with
  | nil =>
    cases h
    exact .inl rfl
  | cons b bytes ih =>
    rw [takeForm] at h
    split at h
    · cases h
      exact .inr rfl
    split at h
    · cases h
    · cases hrest : takeForm top overflow (index + 1) bytes with
      | error e' =>
        rw [hrest] at h
        cases h
        exact ih hrest
      | ok r =>
        rw [hrest] at h
        cases h

/-- What is taken at a position is there, and reading it again takes the same. -/
theorem takeForm_drop (overflow : Malformed) (htop : top < 128) :
    takeForm top overflow 0 (data.drop pos) = .ok (form, rest) ↔
      TakenAt top data pos form ∧ rest = data.drop (pos + form.length) := by
  constructor
  · intro h
    obtain ⟨hdrop, hdelimited, hwithin⟩ := of_takeForm htop (Nat.zero_le 9) h
    refine ⟨⟨hdelimited, hdrop ▸ List.prefix_append _ _, ?_, ?_⟩, ?_⟩
    · simpa using hwithin.length
    · simpa using hwithin.tenth
    · rw [← List.drop_drop, hdrop, List.drop_left]
  · rintro ⟨⟨hdelimited, ⟨rest', hrest'⟩, hlength, htenth⟩, rfl⟩
    have hwithin : Within top 0 form := ⟨by simpa using hlength, by simpa using htenth⟩
    rw [← List.drop_drop, ← hrest', List.drop_left]
    exact takeForm_append hdelimited hwithin rest'

theorem TakenAt.unique {form' : List UInt8} (htop : top < 128) (h : TakenAt top data pos form)
    (h' : TakenAt top data pos form') : form = form' := by
  have htake := (takeForm_drop .lebTruncated htop).mpr ⟨h, rfl⟩
  rw [(takeForm_drop _ htop).mpr ⟨h', rfl⟩] at htake
  cases htake
  rfl

theorem TakenAt.stop_le (h : TakenAt top data pos form) : pos + form.length ≤ data.length := by
  have hle := h.stands.length_le
  have hpos := List.length_pos_iff.mpr h.delimited.ne_nil
  rw [List.length_drop] at hle
  omega

end Taking

section Reading
variable {ν ω : Type} {top : UInt8} {overflow : Malformed} {value : List UInt8 → ν} {word : ω → ν} {Fits : ν → Prop}
  {read : List UInt8 → Except Malformed (ν × List UInt8)} {narrow : ν → Except Malformed ω} {data : List UInt8} {pos : Nat}

/-- A reader that takes a form gives its value, if that is a word, and is behind the form. -/
theorem decodeAt_of_taken {form : List UInt8} (htop : top < 128)
    (hread : ∀ bytes, read bytes = (takeForm top overflow 0 bytes).map fun r => (value r.1, r.2))
    (h : TakenAt top data pos form) : decodeAt read narrow data pos = (narrow (value form), pos + form.length) := by
  have hstop := h.stop_le
  have htake := (takeForm_drop overflow htop).mpr ⟨h, rfl⟩
  rw [decodeAt, if_neg (by omega), hread, htake]
  simp only [Except.map, List.length_drop, Prod.mk.injEq, true_and]
  omega

/-- A reader that takes no form stays where it is. -/
theorem decodeAt_of_not_taken (narrow : ν → Except Malformed ω) (htop : top < 128) (hoverflow : overflow ≠ .lebRange)
    (hread : ∀ bytes, read bytes = (takeForm top overflow 0 bytes).map fun r => (value r.1, r.2))
    (h : ∀ form, ¬TakenAt top data pos form) : ∃ e, decodeAt read narrow data pos = (.error e, pos) ∧ e ≠ .lebRange := by
  rw [decodeAt]
  split
  · exact ⟨_, rfl, Malformed.noConfusion⟩
  · cases htake : takeForm top overflow 0 (data.drop pos) with
    | error e =>
      refine ⟨e, by rw [hread, htake]; rfl, ?_⟩
      rcases takeForm_error htake with rfl | rfl
      · exact Malformed.noConfusion
      · exact hoverflow
    | ok r => exact absurd ((takeForm_drop _ htop).mp htake).1 (h r.1)

theorem answers_decodeAt (htop : top < 128) (hoverflow : overflow ≠ .lebRange)
    (hread : ∀ bytes, read bytes = (takeForm top overflow 0 bytes).map fun r => (value r.1, r.2))
    (hok : ∀ n w, narrow n = .ok w ↔ Fits n ∧ n = word w) (herror : ∀ n e, narrow n = .error e ↔ e = .lebRange ∧ ¬Fits n) :
    Answers top value word Fits data pos (decodeAt read narrow data pos) := by
  by_cases h : ∃ form, TakenAt top data pos form
  · obtain ⟨form, hform⟩ := h
    have hstop := hform.stop_le
    -- no other form is taken here, so what is said of some form is said of this one
    have hunique : ∀ P : List UInt8 → Prop, (∃ f, TakenAt top data pos f ∧ P f) ↔ P form :=
      fun P => ⟨fun ⟨f, hf, hp⟩ => hf.unique htop hform ▸ hp, fun hp => ⟨form, hform, hp⟩⟩
    rw [decodeAt_of_taken htop hread hform]
    refine ⟨fun w stop => ?_, fun stop => ?_, fun e stop heq hne => ?_, fun hpast => by omega, by simp only; omega⟩
    · rw [hunique, Prod.mk.injEq, hok, and_assoc, eq_comm (b := stop)]
    · rw [hunique, Prod.mk.injEq, herror, eq_comm (b := stop)]
      simp only [true_and]
    · exact absurd ((herror _ _).mp (Prod.mk.inj heq).1).1 hne
  · have hnone := not_exists.mp h
    obtain ⟨e, heq, hne⟩ := decodeAt_of_not_taken narrow htop hoverflow hread hnone
    refine ⟨fun w stop => ?_, fun stop => ?_, fun e' stop heq' _ => ⟨hnone, ?_⟩, fun hpast => ?_, ?_⟩
    · simp [heq, hnone]
    · simp [heq, hnone, hne]
    · rw [heq] at heq'
      exact (Prod.mk.inj heq').2.symm
    · rw [decodeAt, if_pos hpast]
    · rw [heq]
      exact Nat.le_max_left _ _

/-- A number may be narrowed from wherever the reader keeps it. -/
theorem decodeAt_map {μ : Type} {inner : List UInt8 → Except Malformed (μ × List UInt8)} (f : μ → ν)
    (hread : ∀ bytes, read bytes = (inner bytes).map fun r => (f r.1, r.2)) (data : List UInt8) (pos : Nat) :
    decodeAt read narrow data pos = decodeAt inner (fun n => narrow (f n)) data pos := by
  rw [decodeAt, decodeAt, hread]
  cases inner (data.drop pos) <;> rfl

end Reading

theorem narrow_eq_error {ω : Type} {c : Prop} [Decidable c] {w : ω} {e : Malformed} :
    (if c then .ok w else .error .lebRange : Except Malformed ω) = .error e ↔ e = .lebRange ∧ ¬c := by
  by_cases hc : c <;> simp [hc, eq_comm]

theorem asWord_eq_error {n : Nat} {e : Malformed} : asWord n = .error e ↔ e = .lebRange ∧ ¬n < 2 ^ 32 := narrow_eq_error

theorem asSignedWord_eq_error {n : Int} {e : Malformed} :
    asSignedWord n = .error e ↔ e = .lebRange ∧ ¬(-2 ^ 31 ≤ n ∧ n < 2 ^ 31) := by
  have hmin : Int32.minValue.toInt = -2 ^ 31 := rfl
  have hmax : Int32.maxValue.toInt = 2 ^ 31 - 1 := rfl
  rw [asSignedWord, narrow_eq_error, hmin, hmax, Int.le_sub_one_iff]

/-- Reading any bytes at any position, by the codec on 64 bits and then as a word. A word is read exactly if the bytes
    up to the first one below 128 are at most ten, the tenth of them repeats the sign, and their number fits 32 bits.
    The position is then behind these bytes, also if the number does not fit, and otherwise where it was. It never
    passes the end of the data. -/
theorem decode_any_bytes (data : List UInt8) (pos : Nat) :
    (decodeUnsignedAt data pos = decodeAt codecUnsigned (fun bits => asWord bits.toNat) data pos ∧
      Answers 1 unsignedValue UInt32.toNat (· < 2 ^ 32) data pos (decodeUnsignedAt data pos)) ∧
    decodeSignedAt data pos = decodeAt codecSigned (fun bits => asSignedWord bits.toInt) data pos ∧
      Answers 0x7f signedValue Int32.toInt (fun n => -2 ^ 31 ≤ n ∧ n < 2 ^ 31) data pos (decodeSignedAt data pos) := by
  have hword : ∀ n (w : UInt32), asWord n = .ok w ↔ n < 2 ^ 32 ∧ n = w.toNat := fun n w =>
    asWord_eq_ok.trans (iff_and_self.mpr fun h => h ▸ w.toNat_lt)
  have hsigned : ∀ n (w : Int32), asSignedWord n = .ok w ↔ (-2 ^ 31 ≤ n ∧ n < 2 ^ 31) ∧ n = w.toInt := fun n w =>
    asSignedWord_eq_ok.trans (iff_and_self.mpr fun h => h ▸ ⟨w.le_toInt, w.toInt_lt⟩)
  refine ⟨⟨decodeAt_map _ readUnsigned_eq_codec data pos, ?_⟩, decodeAt_map _ readSigned_eq_codec data pos, ?_⟩
  · exact answers_decodeAt (by decide) (by decide) (readUnsigned_eq_map 0) hword fun _ _ => asWord_eq_error
  · exact answers_decodeAt (by decide) (by decide) (readSigned_eq_map 0) hsigned fun _ _ => asSignedWord_eq_error

/-- Ten bytes of -1, read where they begin and with one of them left out. -/
example : decodeSignedAt [7, 0xff, 0xff, 0xff, 0xff, 0xff, 0xff, 0xff, 0xff, 0xff, 0x7f] 1 = (.ok (-1), 11) ∧
    decodeUnsignedAt [0xff, 0xff, 0xff, 0xff, 0xff, 0xff, 0xff, 0xff, 0x7f] 0 = (.error .lebRange, 9) := by
  constructor <;> rfl

end MethodAssembler.Leb128
