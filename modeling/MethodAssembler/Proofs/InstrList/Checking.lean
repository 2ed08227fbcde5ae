import MethodAssembler.Proofs.InstrList.Sequence

/-! # What the check of the links accepts

The check follows the next links of whatever list it is given. The instructions that it has met form a segment that nothing
precedes (`Meets`), and such a segment names none of them twice, as a repeated instruction would have to point back to two
places. So a walk is never longer than the arena, where it stops is told by the links (`Stops`), and the check accepts a
list exactly if its links spell a sequence: `checkLinks_exact`. -/

namespace MethodAssembler.InstrList

/-! ### Segments that nothing precedes -/

namespace Segment
variable {arena : Array Node} {ids : List InstrId} {after : Option InstrId} {id : InstrId}

theorem prev_ne_getLast? (h : Segment arena none ids after) (hd : ids.Nodup) (hid : id ∈ ids) :
    ∃ n, arena[id]? = some n ∧ n.linked = true ∧ n.prev ≠ ids.getLast? := by
  obtain ⟨before, rest, rfl⟩ := List.append_of_mem hid
  obtain ⟨n, hn, hprev, -, hl⟩ := h.node
  refine ⟨n, hn, hl, fun hlast => ?_⟩
  rw [hprev, Option.or_none, List.getLast?_append, List.getLast?_cons, Option.some_or] at hlast
  -- What precedes `id` would also be the last one, which is `id` or stands behind it.
  exact (List.nodup_append'.mp hd).2.2 (List.mem_of_getLast? hlast) (List.mem_of_getLast? List.getLast?_cons)

theorem nodup (h : Segment arena none ids after) : ids.Nodup := by
  induction ids using List.reverseRecOn generalizing after with
  | nil => exact List.nodup_nil
  | append_singleton ids id ih =>
    obtain ⟨hids, ⟨n, hn, hprev, -⟩, -⟩ := append_iff.mp h
    have hid : id ∉ ids := by
      intro hid
      obtain ⟨m, hm, -, hne⟩ := hids.prev_ne_getLast? (ih hids) hid
      rw [hn] at hm
      cases hm
      exact hne (hprev.trans Option.or_none)
    exact List.nodup_append'.mpr ⟨ih hids, List.nodup_singleton id, List.disjoint_singleton.mpr hid⟩

end Segment

/-! ### Walks -/

/-- The walk has met `ids`, and found nothing wrong with them, when it gets to `cursor`. -/
structure Meets (l : InstrList) (ids : List InstrId) (cursor : Option InstrId) : Prop where
  first : l.first = ids.head?.or cursor
  segment : Segment l.arena none ids cursor

theorem meets_nil (l : InstrList) : l.Meets [] l.first := ⟨rfl, trivial⟩

section Walks
variable {l : InstrList} {ids : List InstrId} {cursor : Option InstrId} {id : InstrId} {n : Node}

theorem meets_concat : l.Meets (ids ++ [id]) cursor ↔ l.Meets ids (some id) ∧
    ∃ n, l.arena[id]? = some n ∧ n.prev = ids.getLast? ∧ n.next = cursor ∧ n.linked = true := by
  have hhead : (ids ++ [id]).head?.or cursor = ids.head?.or (some id) := by
    rw [List.head?_append, Option.or_assoc]
    rfl
  constructor
  · rintro ⟨hfirst, hsegment⟩
    obtain ⟨hids, ⟨n, hn, hprev, hnext, hl⟩, -⟩ := Segment.append_iff.mp hsegment
    exact ⟨⟨hfirst.trans hhead, hids⟩, n, hn, hprev.trans Option.or_none, hnext, hl⟩
  · rintro ⟨⟨hfirst, hids⟩, n, hn, hprev, hnext, hl⟩
    exact ⟨hfirst.trans hhead.symm,
      Segment.append_iff.mpr ⟨hids, ⟨n, hn, hprev.trans Option.or_none.symm, hnext, hl⟩, trivial⟩⟩

theorem Meets.length_le (h : l.Meets ids cursor) : ids.length ≤ l.arena.size := h.segment.length_le h.segment.nodup

theorem checkFrom_some (hn : l.arena[id]? = some n) (prev : Option InstrId) (count : Nat) :
    l.checkFrom (some id) prev count =
      if n.linked = false then .error (.refused (.listCorrupted (.unlinkedMember id)))
      else if n.prev ≠ prev then .error (.refused (.listCorrupted (.wrongPrev id n.prev prev)))
      else if l.arena.size < count + 1 then .error (.refused (.listCorrupted .cycle))
      else l.checkFrom n.next (some id) (count + 1) := by
  rw [checkFrom]
  simp only [node, hn, present_some, Checked.ok_bind]
  cases n.linked <;> by_cases hp : n.prev = prev <;> simp [hp]

theorem Meets.checkFrom_concat (h : l.Meets (ids ++ [id]) cursor) :
    l.checkFrom (some id) ids.getLast? ids.length = l.checkFrom cursor (ids ++ [id]).getLast? (ids ++ [id]).length := by
  -- The arena holds all that is met, this instruction included, so the count stays below the one of a cycle.
  have hle := h.length_le
  rw [List.length_append, List.length_singleton] at hle ⊢
  obtain ⟨-, n, hn, hprev, hnext, hl⟩ := meets_concat.mp h
  rw [checkFrom_some hn, if_neg (by rw [hl]; decide), if_neg (not_not_intro hprev), if_neg (Nat.not_lt.mpr hle), hnext,
    List.getLast?_concat]

theorem Meets.checkFrom_first (h : l.Meets ids cursor) :
    l.checkFrom l.first none 0 = l.checkFrom cursor ids.getLast? ids.length := by
  induction ids using List.reverseRecOn generalizing cursor with
  | nil =>
    rw [show l.first = cursor from h.first]
    rfl
  | append_singleton ids id ih => rw [ih (meets_concat.mp h).1, h.checkFrom_concat]

/-! ### Where a walk stops -/

/-- The walk stops at `cursor` after `ids`, with this result. -/
inductive Stops (l : InstrList) (ids : List InstrId) : Option InstrId → Checked (Option InstrId × Nat) → Prop where
  | finished : Stops l ids none (.ok (ids.getLast?, ids.length))
  | outside {id : InstrId} : l.arena[id]? = none → Stops l ids (some id) (.error .trap)
  | unlinked {id : InstrId} {n : Node} : l.arena[id]? = some n → n.linked = false →
      Stops l ids (some id) (.error (.refused (.listCorrupted (.unlinkedMember id))))
  | wrongPrev {id : InstrId} {n : Node} : l.arena[id]? = some n → n.linked = true → n.prev ≠ ids.getLast? →
      Stops l ids (some id) (.error (.refused (.listCorrupted (.wrongPrev id n.prev ids.getLast?))))

theorem Stops.checkFrom_eq {r : Checked (Option InstrId × Nat)} (h : l.Stops ids cursor r) :
    l.checkFrom cursor ids.getLast? ids.length = r := by
  cases h with
  | finished => rw [checkFrom]
  | outside hn =>
    rw [checkFrom, node, hn]
    rfl
  | unlinked hn hl => rw [checkFrom_some hn, if_pos hl]
  | wrongPrev hn hl hp => rw [checkFrom_some hn, if_neg (by rw [hl]; decide), if_pos hp]

theorem Meets.exists_stops (h : l.Meets ids cursor) : ∃ ids' cursor' r, l.Meets ids' cursor' ∧ l.Stops ids' cursor' r := by
  -- The walk stops here or meets one more instruction, which leaves less room in the arena.
  induction hroom : l.arena.size - ids.length using Nat.strongRecOn generalizing ids cursor with
  | ind room ih =>
    cases cursor with
    | none => exact ⟨ids, none, _, h, .finished⟩
    | some id =>
      cases hn : l.arena[id]? with
      | none => exact ⟨ids, some id, _, h, .outside hn⟩
      | some n =>
        cases hl : n.linked with
        | false => exact ⟨ids, some id, _, h, .unlinked hn hl⟩
        | true =>
          by_cases hp : n.prev = ids.getLast?
          · have hnext : l.Meets (ids ++ [id]) n.next := meets_concat.mpr ⟨h, n, hn, hp, rfl, hl⟩
            have hle := hnext.length_le
            rw [List.length_append, List.length_singleton] at hle
            exact ih _ (by rw [List.length_append, List.length_singleton]; omega) hnext rfl
          · exact ⟨ids, some id, _, h, .wrongPrev hn hl hp⟩

theorem exists_walk (l : InstrList) :
    ∃ ids cursor r, l.Meets ids cursor ∧ l.Stops ids cursor r ∧ l.checkFrom l.first none 0 = r := by
  obtain ⟨ids, cursor, r, hmeets, hstops⟩ := l.meets_nil.exists_stops
  exact ⟨ids, cursor, r, hmeets, hstops, hmeets.checkFrom_first.trans hstops.checkFrom_eq⟩

end Walks

/-! ### The check -/

/-- The links of the list, from first to last, spell `ids`. An instruction that is marked as linked may still be missing. -/
structure Threads (l : InstrList) (ids : List InstrId) : Prop where
  nodup : ids.Nodup
  segment : Segment l.arena none ids none
  first : l.first = ids.head?
  last : l.last = ids.getLast?
  length : l.length = ids.length

/-- The links that a walk follows lead to allocated instructions. -/
structure Closed (l : InstrList) : Prop where
  first : ∀ id ∈ l.first, id < l.arena.size
  next : ∀ n ∈ l.arena, ∀ id ∈ n.next, id < l.arena.size

section Check
variable {l : InstrList} {ids : List InstrId} {id : InstrId}

theorem Meets.lt_size (h : l.Meets ids (some id)) (hc : l.Closed) : id < l.arena.size := by
  cases ids using List.reverseRecOn with
  | nil => exact hc.first id h.first
  | append_singleton ids last _ =>
    obtain ⟨-, n, hn, -, hnext, -⟩ := meets_concat.mp h
    exact hc.next n (Array.mem_of_getElem? hn) id hnext

theorem checkLinks_of_error {e : Fault} (h : l.checkFrom l.first none 0 = .error e) : l.checkLinks = .error e := by
  rw [checkLinks, h]
  rfl

theorem checkLinks_of_ok {tail : Option InstrId} {count : Nat} (h : l.checkFrom l.first none 0 = .ok (tail, count)) :
    l.checkLinks =
      if l.last ≠ tail then .error (.refused (.listCorrupted (.wrongTail l.last tail)))
      else if count ≠ l.length then .error (.refused (.listCorrupted (.wrongLength count l.length)))
      else .ok () := by
  rw [checkLinks, h]
  by_cases htail : l.last = tail <;> by_cases hcount : count = l.length <;> simp [htail, hcount]

theorem checkLinks_eq_ok_iff : l.checkLinks = .ok () ↔ ∃ ids, l.Threads ids := by
  constructor
  · intro hok
    obtain ⟨ids, cursor, r, hmeets, hstops, hr⟩ := l.exists_walk
    cases hstops with
    | finished =>
      rw [checkLinks_of_ok hr] at hok
      split at hok
      · cases hok
      · rename_i hlast
        split at hok
        · cases hok
        · rename_i hlength
          exact ⟨ids, hmeets.segment.nodup, hmeets.segment, hmeets.first.trans Option.or_none,
            Decidable.not_not.mp hlast, (Decidable.not_not.mp hlength).symm⟩
    -- A walk that stops early is an error by itself.
    | outside | unlinked | wrongPrev =>
      rw [checkLinks_of_error hr] at hok
      cases hok
  · rintro ⟨ids, h⟩
    have hmeets : l.Meets ids none := ⟨h.first.trans Option.or_none.symm, h.segment⟩
    have hr := hmeets.checkFrom_first.trans Stops.finished.checkFrom_eq
    rw [checkLinks_of_ok hr, if_neg (not_not_intro h.last), if_neg (not_not_intro h.length.symm)]

theorem exists_defect_of_checkLinks {e : Fault} (hc : l.Closed) (h : l.checkLinks = .error e) :
    ∃ d, e = .refused (.listCorrupted d) ∧ d ≠ .cycle := by
  obtain ⟨ids, cursor, r, hmeets, hstops, hr⟩ := l.exists_walk
  cases hstops with
  | finished =>
    rw [checkLinks_of_ok hr] at h
    split at h
    · cases h
      exact ⟨_, rfl, by simp⟩
    · split at h
      · cases h
        exact ⟨_, rfl, by simp⟩
      · cases h
  | outside hn => exact absurd (hmeets.lt_size hc) (Nat.not_lt.mpr (Array.getElem?_eq_none_iff.mp hn))
  | unlinked | wrongPrev =>
    rw [checkLinks_of_error hr] at h
    cases h
    exact ⟨_, rfl, by simp⟩

theorem checkLinks_of_mem (h : l.Meets ids (some id)) (hid : id ∈ ids) : ∃ n, l.arena[id]? = some n ∧
    l.checkLinks = .error (.refused (.listCorrupted (.wrongPrev id n.prev ids.getLast?))) := by
  obtain ⟨n, hn, hl, hp⟩ := h.segment.prev_ne_getLast? h.segment.nodup hid
  exact ⟨n, hn, checkLinks_of_error (h.checkFrom_first.trans (Stops.wrongPrev hn hl hp).checkFrom_eq)⟩

end Check

/-- Whatever the links are, as long as they lead to allocated instructions: the check accepts the list exactly if they
    spell a sequence, and otherwise it names a defect that is no cycle. It meets no more instructions than there are,
    and one that it comes to again has a wrong link back. -/
theorem checkLinks_exact (l : InstrList) (hc : l.Closed) :
    (l.checkLinks = .ok () ↔ ∃ ids, l.Threads ids) ∧
    (∀ e, l.checkLinks = .error e → ∃ d, e = .refused (.listCorrupted d) ∧ d ≠ .cycle) ∧
    (∀ ids cursor, l.Meets ids cursor → ids.length ≤ l.arena.size ∧
      l.checkFrom l.first none 0 = l.checkFrom cursor ids.getLast? ids.length) ∧
    (∀ ids id, l.Meets ids (some id) → id ∈ ids → ∃ n, l.arena[id]? = some n ∧
      l.checkLinks = .error (.refused (.listCorrupted (.wrongPrev id n.prev ids.getLast?)))) :=
  ⟨checkLinks_eq_ok_iff, fun _ => exists_defect_of_checkLinks hc, fun _ _ h => ⟨h.length_le, h.checkFrom_first⟩,
    fun _ _ => checkLinks_of_mem⟩

/-- Three labels, the last of which leads back to the second. -/
def lasso : InstrList where
  arena := #[{ instr := .pseudo .normalBlockLabel 0, next := some 1, linked := true },
    { instr := .pseudo .normalBlockLabel 1, prev := some 0, next := some 2, linked := true },
    { instr := .pseudo .normalBlockLabel 2, prev := some 1, next := some 1, linked := true }]
  first := some 0
  last := some 2
  length := 3

theorem checkLinks_exact_lasso : lasso.Closed ∧
    lasso.checkLinks = .error (.refused (.listCorrupted (.wrongPrev 1 (some 0) (some 2)))) ∧ ¬∃ ids, lasso.Threads ids := by
  have hclosed : lasso.Closed := ⟨by decide, by decide⟩
  obtain ⟨hok, -, -, hagain⟩ := checkLinks_exact lasso hclosed
  have hmeets : lasso.Meets [0, 1, 2] (some 1) :=
    ⟨rfl, ⟨_, rfl, rfl, rfl, rfl⟩, ⟨_, rfl, rfl, rfl, rfl⟩, ⟨_, rfl, rfl, rfl, rfl⟩, trivial⟩
  obtain ⟨n, hn, herror⟩ := hagain [0, 1, 2] 1 hmeets (by decide)
  cases hn
  refine ⟨hclosed, herror, fun hthreads => ?_⟩
  rw [hok.mpr hthreads] at herror
  cases herror

end MethodAssembler.InstrList
