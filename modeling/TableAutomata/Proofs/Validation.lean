import Mathlib.Data.List.OfFn
import TableAutomata.Automaton.Table

/-! Tables and the lists they are built from. A table that is built lists the entries it was built
from, so its links may be read off the list. -/

namespace TableAutomata

variable {C T Ctx : Type}

theorem Target.ofLink_resolve {len : Nat} {s : Target} (h : s.dangling? len = none) :
    Target.ofLink (s.resolve len) = s := by
  cases s with
  | terminal => rfl
  | index n =>
    by_cases hn : n < len
    · simp [resolve, hn, ofLink]
    · simp [dangling?, hn] at h

theorem Target.ofLink_injective {len : Nat} {a b : Option (Fin len)} (h : ofLink a = ofLink b) :
    a = b := by
  cases a with
  | none => cases b with
    | none => rfl
    | some j => cases h
  | some i => cases b with
    | none => cases h
    | some j => exact congrArg some (Fin.ext (index.inj h))

@[simp] theorem Target.dangling?_ofLink {len : Nat} (s : Option (Fin len)) :
    (ofLink s).dangling? len = none := by
  cases s with
  | none => rfl
  | some i => simp [ofLink, dangling?]

theorem Entry.dangling?_eq_none_iff {len : Nat} {e : Entry C T Ctx} :
    e.dangling? len = none ↔
      e.onSuccess.dangling? len = none ∧ e.onFailure.dangling? len = none := by
  cases h : e.onSuccess.dangling? len <;> simp [dangling?, h]

namespace Table

theorem firstDangling?_eq_none_iff {len i : Nat} {es : List (Entry C T Ctx)} :
    firstDangling? len i es = none ↔ ∀ e ∈ es, e.dangling? len = none := by
  induction es generalizing i with
  | nil => simp [firstDangling?]
  | cons e rest ih =>
    cases h : e.dangling? len <;> simp [firstDangling?, h, ih]

theorem exists_ofEntries? {es : List (Entry C T Ctx)} (hne : es ≠ [])
    (h : ∀ e ∈ es, e.dangling? es.length = none) : ∃ t, ofEntries? es = .ok t := by
  refine ⟨ofEntries es hne, ?_⟩
  simp only [ofEntries?, dif_neg hne, firstDangling?_eq_none_iff.mpr h]

theorem exists_ofEntries?_mapIdx {ms : List (Matcher C T Ctx)}
    (f : Nat → Matcher C T Ctx → Entry C T Ctx) (hne : ms ≠ [])
    (h : ∀ i m, (f i m).dangling? ms.length = none) : ∃ t, ofEntries? (ms.mapIdx f) = .ok t := by
  refine exists_ofEntries? (by simpa using hne) fun e he => ?_
  obtain ⟨i, hi, rfl⟩ := List.mem_mapIdx.mp he
  rw [List.length_mapIdx]
  exact h i _

theorem entry_ofEntries {es : List (Entry C T Ctx)} (hne : es ≠ [])
    (h : ∀ e ∈ es, e.dangling? es.length = none) (i : Fin es.length) :
    (ofEntries es hne).entry i = es.get i := by
  have hi := Entry.dangling?_eq_none_iff.mp (h es[i] (List.get_mem es i))
  simp only [entry, ofEntries, Entry.link, Target.ofLink_resolve hi.1, Target.ofLink_resolve hi.2,
    List.get_eq_getElem]
  rfl

theorem entries_eq_of_ofEntries? {es : List (Entry C T Ctx)} {t : Table C T Ctx}
    (h : ofEntries? es = .ok t) : t.entries = es := by
  simp only [ofEntries?] at h
  split at h
  · cases h
  · next hne =>
    split at h
    · cases h
    · next hd =>
      cases h
      have he := entry_ofEntries hne (firstDangling?_eq_none_iff.mp hd)
      calc (ofEntries es hne).entries = List.ofFn es.get := congrArg List.ofFn (funext he)
        _ = es := List.ofFn_get es

theorem getElem?_entries {t : Table C T Ctx} {i : Nat} {e : Entry C T Ctx} :
    t.entries[i]? = some e ↔ ∃ h : i < t.size, e = t.entry ⟨i, h⟩ := by
  simp only [entries, List.getElem?_ofFn]
  by_cases h : i < t.size <;> simp [h, eq_comm]

theorem mem_entries {t : Table C T Ctx} {e : Entry C T Ctx} :
    e ∈ t.entries ↔ ∃ i, e = t.entry i := by
  simp [entries, List.mem_ofFn, eq_comm]

theorem length_entries (t : Table C T Ctx) : t.entries.length = t.size :=
  List.length_ofFn

theorem eq_of_entries_eq {t t' : Table C T Ctx} (h : t.entries = t'.entries) : t = t' := by
  obtain ⟨n, hn, link, matcher⟩ := t
  obtain ⟨n', hn', link', matcher'⟩ := t'
  have hsize : n = n' := by simpa [length_entries] using congrArg List.length h
  subst hsize
  have hentry : ∀ i, entry ⟨n, hn, link, matcher⟩ i = entry ⟨n, hn', link', matcher'⟩ i :=
    congrFun (List.ofFn_injective h)
  have hlink : link = link' := by
    funext i
    obtain ⟨hs, hf, -, hacc, ha, hb⟩ := Entry.mk.inj (hentry i)
    cases hl : link i with
    | mk =>
      cases hl' : link' i with
      | mk =>
        simp only [hl, hl'] at hs hf hacc ha hb
        rw [Target.ofLink_injective hs, Target.ofLink_injective hf, hacc, ha, hb]
  have hmatcher : matcher = matcher' := funext fun i => congrArg Entry.matcher (hentry i)
  rw [hlink, hmatcher]

/-- Every table can be built, from the entries it lists. -/
theorem ofEntries?_entries (t : Table C T Ctx) : ofEntries? t.entries = .ok t := by
  have hne : t.entries ≠ [] := by
    have hpos := t.size_pos
    rw [← length_entries] at hpos
    exact List.length_pos_iff.mp hpos
  obtain ⟨t', hok⟩ : ∃ t', ofEntries? t.entries = .ok t' := by
    refine exists_ofEntries? hne fun e he => ?_
    obtain ⟨i, rfl⟩ := mem_entries.mp he
    rw [Entry.dangling?_eq_none_iff, length_entries]
    exact ⟨Target.dangling?_ofLink _, Target.dangling?_ofLink _⟩
  rw [hok, eq_of_entries_eq (entries_eq_of_ofEntries? hok)]

end Table

end TableAutomata
