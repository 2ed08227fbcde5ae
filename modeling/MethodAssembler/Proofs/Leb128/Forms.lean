import MethodAssembler.Proofs.Leb128

/-! # The forms of a number

A number has many forms, for groups that only repeat its sign may be added. A reader takes exactly the bytes up to the
first one below 128, and the number that it gives is the sum of their groups. Whatever can be said by what a reader takes
off the front of a stream goes on to readers that run one behind the other. -/

namespace MethodAssembler

/-! ### Readers -/

/-- A reader takes a value off the front of a stream exactly if the bytes before the rest are a form of the value. -/
def Reads {α : Type} (Form : List UInt8 → α → Prop) (read : List UInt8 → Except Malformed (α × List UInt8)) : Prop :=
  ∀ bytes a rest, read bytes = .ok (a, rest) ↔ ∃ form, bytes = form ++ rest ∧ Form form a

namespace Reads
variable {α β : Type} {Form Form' : List UInt8 → α → Prop} {read : List UInt8 → Except Malformed (α × List UInt8)}

theorem congr (h : Reads Form read) (hform : ∀ form a, Form form a ↔ Form' form a) : Reads Form' read := by
  intro bytes a rest
  rw [h]
  simp only [hform]

/-- What stands behind a form does not matter to its reader. -/
theorem append (h : Reads Form read) {bytes rest : List UInt8} {a : α} (hread : read bytes = .ok (a, rest))
    (extra : List UInt8) : read (bytes ++ extra) = .ok (a, rest ++ extra) := by
  obtain ⟨form, rfl, hform⟩ := (h bytes a rest).mp hread
  exact (h _ a _).mpr ⟨form, List.append_assoc form rest extra, hform⟩

theorem pure (a : α) : Reads (fun form b => form = [] ∧ b = a) fun bytes => .ok (a, bytes) := by
  intro bytes b rest
  simp only [Except.ok.injEq, Prod.mk.injEq]
  constructor
  · rintro ⟨rfl, rfl⟩
    exact ⟨[], rfl, rfl, rfl⟩
  · rintro ⟨_, rfl, rfl, rfl⟩
    exact ⟨rfl, rfl⟩

theorem map (h : Reads Form read) (f : α → β) :
    Reads (fun form b => ∃ a, Form form a ∧ b = f a) fun bytes => read bytes >>= fun r => .ok (f r.1, r.2) := by
  intro bytes b rest
  simp only [Checked.bind_eq_ok, Except.ok.injEq, Prod.mk.injEq]
  constructor
  · rintro ⟨⟨a, _⟩, hread, rfl, rfl⟩
    obtain ⟨form, hbytes, hform⟩ := (h _ _ _).mp hread
    exact ⟨form, hbytes, a, hform, rfl⟩
  · rintro ⟨form, hbytes, a, hform, rfl⟩
    exact ⟨(a, rest), (h _ _ _).mpr ⟨form, hbytes, hform⟩, rfl, rfl⟩

/-- One reader and then another, which may depend on what the first one gave, read two forms in a row. -/
theorem bind {Next : α → List UInt8 → β → Prop} {next : α → List UInt8 → Except Malformed (β × List UInt8)}
    (h : Reads Form read) (hnext : ∀ a, Reads (Next a) (next a)) :
    Reads (fun form b => ∃ a front back, form = front ++ back ∧ Form front a ∧ Next a back b)
      fun bytes => read bytes >>= fun r => next r.1 r.2 := by
  intro bytes b rest
  simp only [Checked.bind_eq_ok]
  constructor
  · rintro ⟨⟨a, middle⟩, hread, hlast⟩
    obtain ⟨front, rfl, hform⟩ := (h _ _ _).mp hread
    obtain ⟨back, hmiddle, hback⟩ := (hnext a _ _ _).mp hlast
    exact ⟨front ++ back, by rw [show middle = back ++ rest from hmiddle, List.append_assoc], a, front, back, rfl, hform,
      hback⟩
  · rintro ⟨_, rfl, a, front, back, rfl, hform, hback⟩
    exact ⟨(a, back ++ rest), (h _ _ _).mpr ⟨front, List.append_assoc front back rest, hform⟩,
      (hnext a _ _ _).mpr ⟨back, rfl, hback⟩⟩

theorem refuse (h : Reads Form read) (c : Prop) [Decidable c] (defect : Malformed) :
    Reads (fun form a => ¬c ∧ Form form a) fun bytes => if c then .error defect else read bytes := by
  intro bytes a rest
  by_cases hc : c
  · simp [hc]
  · simpa [hc] using h bytes a rest

end Reads

namespace Leb128

/-! ### Forms -/

/-- The bytes of one number: every one but the last has its high bit set. -/
inductive Delimited : List UInt8 → Prop
  | last {b : UInt8} : b < 128 → Delimited [b]
  | more {b : UInt8} {form : List UInt8} : ¬b < 128 → Delimited form → Delimited (b :: form)

/-- The sum of the groups. -/
def unsignedValue (form : List UInt8) : Nat := (form.mapIdx fun i b => b.toNat % 128 * 2 ^ (7 * i)).sum

/-- The sum of the groups in two's complement, bit 6 of the last byte being the sign. -/
def signedValue (form : List UInt8) : Int :=
  if form.getLastD 0 < 64 then unsignedValue form else (unsignedValue form : Int) - (2 ^ (7 * form.length) : Nat)

/-- A form of an unsigned word. -/
structure Unsigned (form : List UInt8) (n : Nat) : Prop where
  delimited : Delimited form
  length : form.length ≤ 10
  value : unsignedValue form = n
  range : n < 2 ^ 32

/-- A form of a signed word. -/
structure Signed (form : List UInt8) (n : Int) : Prop where
  delimited : Delimited form
  length : form.length ≤ 10
  value : signedValue form = n
  range : -2 ^ 31 ≤ n ∧ n < 2 ^ 31

section Values
variable {b : UInt8} {form : List UInt8}

theorem Delimited.ne_nil (h : Delimited form) : form ≠ [] := by
  cases h <;> exact List.cons_ne_nil _ _

theorem Delimited.exists_concat (h : Delimited form) : ∃ front last, form = front ++ [last] ∧ last < 128 := by
  induction h with
  | @last b hb => exact ⟨[], b, rfl, hb⟩
  | @more b form _ _ ih =>
    obtain ⟨front, last, rfl, hlast⟩ := ih
    exact ⟨b :: front, last, rfl, hlast⟩

/-- Groups that stand `k` places higher. -/
theorem sum_shifted (form : List UInt8) (k : Nat) :
    (form.mapIdx fun i b => b.toNat % 128 * 2 ^ (7 * (i + k))).sum = 2 ^ (7 * k) * unsignedValue form := by
  induction form generalizing k with
  | nil => simp [unsignedValue]
  | cons b form ih =>
    have hone := ih 1
    have hnext := ih (k + 1)
    simp only [unsignedValue, List.mapIdx_cons, List.sum_cons] at hone hnext ⊢
    simp only [Nat.add_assoc, Nat.add_comm 1 k, hone, hnext]
    simp only [Nat.zero_add, Nat.mul_zero, Nat.pow_zero, Nat.mul_one, Nat.mul_add, Nat.pow_add, Nat.mul_assoc]
    rw [Nat.mul_comm]

theorem unsignedValue_cons (b : UInt8) (form : List UInt8) :
    unsignedValue (b :: form) = b.toNat % 128 + 128 * unsignedValue form := by
  have hshift := sum_shifted form 1
  rw [unsignedValue, List.mapIdx_cons, List.sum_cons, hshift]
  simp

theorem unsignedValue_concat (form : List UInt8) (b : UInt8) :
    unsignedValue (form ++ [b]) = unsignedValue form + b.toNat % 128 * 2 ^ (7 * form.length) := by
  rw [unsignedValue, List.mapIdx_concat, List.sum_append_nat]
  simp [unsignedValue]

theorem unsignedValue_lt (form : List UInt8) : unsignedValue form < 2 ^ (7 * form.length) := by
  induction form with
  | nil => exact Nat.one_pos
  | cons b form ih =>
    rw [unsignedValue_cons, List.length_cons, Nat.mul_add, Nat.pow_add]
    omega

theorem signedValue_cons (h : form ≠ []) (b : UInt8) :
    signedValue (b :: form) = (b.toNat % 128 : Nat) + 128 * signedValue form := by
  obtain ⟨c, form, rfl⟩ := List.exists_cons_of_ne_nil h
  have hlast : (b :: c :: form).getLastD 0 = (c :: form).getLastD 0 := rfl
  simp only [signedValue, hlast, unsignedValue_cons b]
  split
  · omega
  · rw [List.length_cons (a := b), Nat.mul_add, Nat.pow_add]
    omega

theorem unsignedValue_singleton (hb : b < 128) : unsignedValue [b] = b.toNat := by
  have hmod := Nat.mod_eq_of_lt (UInt8.lt_iff_toNat_lt.mp hb)
  rw [unsignedValue_cons]
  exact hmod

theorem signedValue_singleton (hb : b < 128) :
    signedValue [b] = if b < 64 then (b.toNat : Int) else (b.toNat : Int) - 128 := by
  simp [signedValue, unsignedValue_singleton hb]

end Values

/-! ### Taking a form -/

/-- A form is taken if it has at most ten groups with the `index` ones before it, and if the tenth is zero or `top`. -/
structure Within (top : UInt8) (index : Nat) (form : List UInt8) : Prop where
  length : index + form.length ≤ 10
  tenth : index + form.length = 10 → form.getLastD 0 = 0 ∨ form.getLastD 0 = top

/-- Takes the form of a number off the front of a stream. -/
def takeForm (top : UInt8) (overflow : Malformed) : (index : Nat) → List UInt8 → Except Malformed (List UInt8 × List UInt8)
  | _, [] => .error .lebTruncated
  | index, b :: rest =>
    if index = 9 ∧ b ≠ 0 ∧ b ≠ top then .error overflow
    else if b < 128 then .ok ([b], rest)
    else (takeForm top overflow (index + 1) rest).map fun r => (b :: r.1, r.2)

section Taking
variable {top : UInt8} {overflow : Malformed} {index : Nat} {bytes form rest : List UInt8}

theorem within_cons (h : form ≠ []) (b : UInt8) : Within top index (b :: form) ↔ Within top (index + 1) form := by
  obtain ⟨c, form, rfl⟩ := List.exists_cons_of_ne_nil h
  have hlength : index + (b :: c :: form).length = index + 1 + (c :: form).length := by
    rw [List.length_cons]
    omega
  exact ⟨fun ⟨hle, htenth⟩ => ⟨hlength ▸ hle, hlength ▸ htenth⟩, fun ⟨hle, htenth⟩ => ⟨hlength ▸ hle, hlength ▸ htenth⟩⟩

theorem takeForm_append (hform : Delimited form) (hwithin : Within top index form) (rest : List UInt8) :
    takeForm top overflow index (form ++ rest) = .ok (form, rest) := by
  induction hform generalizing index with
  | @last b hb =>
    have htenth : ¬(index = 9 ∧ b ≠ 0 ∧ b ≠ top) := by
      rintro ⟨rfl, hzero, htop⟩
      exact (hwithin.tenth rfl).elim hzero htop
    rw [List.singleton_append, takeForm, if_neg htenth, if_pos hb]
  | @more b form hb hform ih =>
    have hne : index ≠ 9 := by
      have hle := hwithin.length
      have hpos := List.length_pos_iff.mpr hform.ne_nil
      rw [List.length_cons] at hle
      omega
    rw [List.cons_append, takeForm, if_neg fun hover => hne hover.1, if_neg hb,
      ih ((within_cons hform.ne_nil b).mp hwithin)]
    rfl

theorem ne_nil_of_takeForm {r : List UInt8 × List UInt8} (h : takeForm top overflow index bytes = .ok r) : r.1 ≠ [] := by
  cases bytes with
  | nil => cases h
  | cons b bytes =>
    rw [takeForm] at h
    split at h
    · cases h
    split at h
    · cases h
      exact List.cons_ne_nil _ _
    · obtain ⟨_, -, rfl⟩ := Checked.map_eq_ok.mp h
      exact List.cons_ne_nil _ _

theorem of_takeForm (htop : top < 128) (hindex : index ≤ 9) (h : takeForm top overflow index bytes = .ok (form, rest)) :
    bytes = form ++ rest ∧ Delimited form ∧ Within top index form := by
  induction bytes generalizing index form with
  | nil => cases h
  | cons b bytes ih =>
    rw [takeForm] at h
    split at h
    · cases h
    rename_i htenth
    split at h
    · rename_i hb
      cases h
      refine ⟨rfl, .last hb, Nat.succ_le_succ hindex, fun hten => ?_⟩
      exact Decidable.byContradiction fun hother => htenth ⟨Nat.succ.inj hten, not_or.mp hother⟩
    · rename_i hb
      obtain ⟨⟨form', rest'⟩, hrest, heq⟩ := Checked.map_eq_ok.mp h
      cases heq
      -- A tenth byte that is taken is 0 or `top`, and neither asks for another.
      have hne : index ≠ 9 := by
        rintro rfl
        refine htenth ⟨rfl, ?_, ?_⟩
        · rintro rfl
          exact hb (by decide)
        · rintro rfl
          exact hb htop
      obtain ⟨rfl, hform, hwithin⟩ := ih (by omega) hrest
      exact ⟨rfl, .more hb hform, (within_cons hform.ne_nil b).mpr hwithin⟩

end Taking

/-! ### The number of a form -/

theorem readUnsigned_eq_map (index : Nat) (bytes : List UInt8) :
    readUnsigned index bytes = (takeForm 1 .lebUnsignedOverflow index bytes).map fun r => (unsignedValue r.1, r.2) := by
  induction bytes generalizing index with
  | nil => rfl
  | cons b bytes ih =>
    rw [readUnsigned, takeForm]
    split
    · rfl
    split
    · rename_i hb
      simp only [Except.map, unsignedValue_singleton hb]
    · rw [ih]
      cases takeForm 1 .lebUnsignedOverflow (index + 1) bytes with
      | error e => rfl
      | ok r => simp only [Except.map, unsignedValue_cons]

theorem readSigned_eq_map (index : Nat) (bytes : List UInt8) :
    readSigned index bytes = (takeForm 0x7f .lebSignedOverflow index bytes).map fun r => (signedValue r.1, r.2) := by
  induction bytes generalizing index with
  | nil => rfl
  | cons b bytes ih =>
    rw [readSigned, takeForm]
    split
    · rfl
    split
    · rename_i hb
      simp only [Except.map, signedValue_singleton hb]
    · rw [ih]
      cases hrest : takeForm 0x7f .lebSignedOverflow (index + 1) bytes with
      | error e => rfl
      | ok r => simp only [Except.map, signedValue_cons (ne_nil_of_takeForm hrest)]

/-! ### Words -/

section Words
variable {form : List UInt8}

/-- The tenth group of a word can only repeat the sign. -/
theorem Unsigned.within {n : Nat} (h : Unsigned form n) : Within 1 0 form := by
  obtain ⟨front, last, rfl, hlast⟩ := h.delimited.exists_concat
  refine ⟨Nat.zero_add _ ▸ h.length, fun hten => .inl ?_⟩
  have hfront : front.length = 9 := by simpa using hten
  have hvalue := h.value
  have hrange := h.range
  have hlt : last.toNat < 128 := UInt8.lt_iff_toNat_lt.mp hlast
  rw [unsignedValue_concat, hfront] at hvalue
  rw [List.getLastD_concat]
  refine UInt8.toNat_inj.mp (show last.toNat = 0 from ?_)
  omega

theorem Signed.within {n : Int} (h : Signed form n) : Within 0x7f 0 form := by
  obtain ⟨front, last, rfl, hlast⟩ := h.delimited.exists_concat
  refine ⟨Nat.zero_add _ ▸ h.length, fun hten => ?_⟩
  have hfront : front.length = 9 := by simpa using hten
  have hvalue := h.value
  have hrange := h.range
  have hlow := unsignedValue_lt front
  have hlt : last.toNat < 128 := UInt8.lt_iff_toNat_lt.mp hlast
  rw [signedValue, List.getLastD_concat, unsignedValue_concat, List.length_append, hfront] at hvalue
  rw [hfront] at hlow
  rw [List.getLastD_concat]
  by_cases hsign : last < 64
  · refine .inl (UInt8.toNat_inj.mp (show last.toNat = 0 from ?_))
    rw [if_pos hsign] at hvalue
    omega
  · refine .inr (UInt8.toNat_inj.mp (show last.toNat = 127 from ?_))
    rw [if_neg hsign] at hvalue
    simp only [List.length_singleton] at hvalue
    omega

theorem Unsigned.exists_word {n : Nat} (h : Unsigned form n) : ∃ w : UInt32, n = w.toNat :=
  ⟨.ofNat n, (UInt32.toNat_ofNat_of_lt' h.range).symm⟩

theorem Signed.exists_word {n : Int} (h : Signed form n) : ∃ w : Int32, n = w.toInt :=
  ⟨.ofInt n, (Int32.toInt_ofInt_of_le h.range.1 h.range.2).symm⟩

theorem asWord_eq_ok {n : Nat} {w : UInt32} : asWord n = .ok w ↔ n = w.toNat := by
  rw [asWord]
  split
  · rename_i hlt
    rw [Except.ok.injEq, ← UInt32.toNat_inj, UInt32.toNat_ofNat_of_lt' hlt]
  · rename_i hle
    refine ⟨fun h => ?_, fun h => ?_⟩
    · cases h
    · exact absurd (h ▸ w.toNat_lt) hle

theorem asSignedWord_eq_ok {n : Int} {w : Int32} : asSignedWord n = .ok w ↔ n = w.toInt := by
  rw [asSignedWord]
  split
  · rename_i hrange
    rw [Except.ok.injEq, ← Int32.toInt_inj, Int32.toInt_ofInt_of_le hrange.1 (Int.lt_of_le_of_lt hrange.2 (by decide))]
  · rename_i hout
    refine ⟨fun h => ?_, fun h => ?_⟩
    · cases h
    · exact absurd ⟨h ▸ w.minValue_le_toInt, h ▸ w.toInt_le⟩ hout

/-- A reader that takes a form, and then its value if it is narrow enough, reads the forms of such values. -/
theorem reads_narrow {ν ω : Type} {top : UInt8} {overflow : Malformed} {value : List UInt8 → ν}
    {narrow : ν → Except Malformed ω} {Form : List UInt8 → ω → Prop}
    {take : List UInt8 → Except Malformed (ω × List UInt8)} (htop : top < 128)
    (htake : ∀ bytes, take bytes = takeForm top overflow 0 bytes >>= fun r => (narrow (value r.1)).map (·, r.2))
    (hform : ∀ form w, Form form w ↔ Delimited form ∧ Within top 0 form ∧ narrow (value form) = .ok w) :
    Reads Form take := by
  intro bytes w rest
  simp only [htake, Checked.bind_eq_ok, Checked.map_eq_ok, hform]
  constructor
  · rintro ⟨⟨form, _⟩, htaken, _, hw, heq⟩
    cases heq
    obtain ⟨hbytes, hdelimited, hwithin⟩ := of_takeForm htop (Nat.zero_le 9) htaken
    exact ⟨form, hbytes, hdelimited, hwithin, hw⟩
  · rintro ⟨form, rfl, hdelimited, hwithin, hw⟩
    exact ⟨(form, rest), takeForm_append hdelimited hwithin rest, w, hw, rfl⟩

/-- An unsigned word is read off its forms, and off nothing else. -/
theorem reads_takeUnsigned : Reads (fun form (w : UInt32) => Unsigned form w.toNat) takeUnsigned := by
  have htake : ∀ bytes, takeUnsigned bytes =
      takeForm 1 .lebUnsignedOverflow 0 bytes >>= fun r => (asWord (unsignedValue r.1)).map (·, r.2) := fun bytes => by
    rw [takeUnsigned, readUnsigned_eq_map]
    cases takeForm 1 .lebUnsignedOverflow 0 bytes <;> rfl
  refine reads_narrow (by decide) htake fun form w => ?_
  rw [asWord_eq_ok]
  constructor
  · exact fun h => ⟨h.delimited, h.within, h.value⟩
  · rintro ⟨hdelimited, hwithin, hvalue⟩
    exact ⟨hdelimited, by simpa using hwithin.length, hvalue, w.toNat_lt⟩

/-- Groups of zeros may follow. -/
example : takeUnsigned [0x85, 0x80, 0x00, 0x07] = .ok (5, [0x07]) := rfl

/-- A signed word is read off its forms, and off nothing else. -/
theorem reads_takeSigned : Reads (fun form (w : Int32) => Signed form w.toInt) takeSigned := by
  have htake : ∀ bytes, takeSigned bytes =
      takeForm 0x7f .lebSignedOverflow 0 bytes >>= fun r => (asSignedWord (signedValue r.1)).map (·, r.2) := fun bytes => by
    rw [takeSigned, readSigned_eq_map]
    cases takeForm 0x7f .lebSignedOverflow 0 bytes <;> rfl
  refine reads_narrow (by decide) htake fun form w => ?_
  rw [asSignedWord_eq_ok]
  constructor
  · exact fun h => ⟨h.delimited, h.within, h.value⟩
  · rintro ⟨hdelimited, hwithin, hvalue⟩
    exact ⟨hdelimited, by simpa using hwithin.length, hvalue, w.le_toInt, w.toInt_lt⟩

end Words

end Leb128

end MethodAssembler
