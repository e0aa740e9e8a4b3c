import TableAutomata.Input.ArrayCursor
import TableAutomata.Proofs.TextPosition

/-! Steps, order and slices of cursors. A step, a comparison and a cut each go by offsets of their own
making, but in one sequence all three speak of the tokens that lie between two places. Between places
of different sequences there is neither equality nor order, and only the offset of the one is left to
cut the other sequence with. -/

namespace TableAutomata

open Cursor (Precedes advanced advanceBy remaining span)

namespace Cursor

variable {C T : Type} [Cursor C T]

/-- Step by step from `a` to `b`, the tokens `ts` are passed. -/
inductive Passes : C → List T → C → Prop where
  | stay {a : C} : Passes a [] a
  | step {a b c : C} {t : T} {ts : List T} : next? a = some (t, b) → Passes b ts c →
      Passes a (t :: ts) c

/-- `a` is less than `b`, equal to it or greater, by an order in which not all cursors have a place. -/
def Stands (compare? : C → C → Option Ordering) (a b : C) : Ordering → Prop
  | .lt => compare? a b = some .lt
  | .eq => (a == b) = true
  | .gt => compare? a b = some .gt

def AtMost (compare? : C → C → Option Ordering) (a b : C) : Prop :=
  compare? a b = some .lt ∨ compare? a b = some .eq

structure Coherent (compare? : C → C → Option Ordering) (slice? : C → C → Option (List T))
    (Over : C → Prop) : Prop where
  advanceBy_passes {a : C} (n : Nat) : Over a →
    (advanceBy n a).1 = min n (remaining a).length ∧
      ∃ ts, Passes a ts (advanceBy n a).2 ∧ ts.length = (advanceBy n a).1
  advanced_advanced {a : C} (m n : Nat) : Over a → advanced n (advanced m a) = advanced (m + n) a
  le_iff {a b : C} : Over a → Over b →
    (AtMost compare? a b ↔ ∃ k, (b == advanced k a) = true)
  lt_iff {a b : C} : Over a → Over b →
    (compare? a b = some .lt ↔ AtMost compare? a b ∧ (b == a) = false)
  exactly_one {a b : C} : Over a → Over b → ∃! o, Stands compare? a b o
  slice_passes {a b : C} : Over a → Over b → AtMost compare? a b →
    ∃ ts, slice? a b = some ts ∧ Passes a ts b ∧ ts ++ remaining b = remaining a
  slice_append {a b c : C} : Over a → Over b → Over c → AtMost compare? a b → AtMost compare? b c →
    ∃ ts us, slice? a b = some ts ∧ slice? b c = some us ∧ slice? a c = some (ts ++ us)
  slice_behind {a b : C} : Over a → Over b → compare? b a = some .lt → slice? a b = some []

/-- Cursors over one sequence whose order and slices go by an offset that grows with every step. -/
structure Measured (compare? : C → C → Option Ordering) (slice? : C → C → Option (List T))
    (offset : C → Nat) (Over : C → Prop) : Prop where
  total {a b : C} : Over a → Over b → Precedes a b ∨ Precedes b a
  compare?_eq {a b : C} : Over a → Over b → compare? a b = some (compare (offset a) (offset b))
  offset_lt {a b : C} {t : T} : next? a = some (t, b) → offset a < offset b
  slice?_eq {a b : C} : Precedes a b → slice? a b = some (span b a)
  slice?_behind {a b : C} : offset b < offset a → slice? a b = some []

namespace Measured

variable {compare? : C → C → Option Ordering} {slice? : C → C → Option (List T)} {offset : C → Nat}
  {Over : C → Prop} {a b c : C}

theorem eq_or_offset_lt (h : Measured compare? slice? offset Over) (hab : Precedes a b) :
    a = b ∨ offset a < offset b := by
  obtain ⟨n, rfl⟩ := hab
  induction n generalizing a with
  | zero => exact .inl rfl
  | succ n ih =>
    cases hn : next? a with
    | none => exact .inl (advanced_of_none hn).symm
    | some tb =>
      have hlt := h.offset_lt hn
      rw [advanced_succ_of_some hn]
      rcases ih (a := tb.2) with heq | hgt
      · exact .inr (heq ▸ hlt)
      · exact .inr (hlt.trans hgt)

theorem precedes_iff (h : Measured compare? slice? offset Over) (ha : Over a) (hb : Over b) :
    Precedes a b ↔ offset a ≤ offset b := by
  constructor
  · intro hab
    rcases h.eq_or_offset_lt hab with rfl | hlt
    · exact Nat.le_refl _
    · exact Nat.le_of_lt hlt
  · intro hle
    rcases h.total ha hb with hab | hba
    · exact hab
    · rcases h.eq_or_offset_lt hba with rfl | hlt
      · exact .refl _
      · omega

theorem lt_iff (h : Measured compare? slice? offset Over) (ha : Over a) (hb : Over b) :
    compare? a b = some .lt ↔ offset a < offset b := by
  rw [h.compare?_eq ha hb, Option.some.injEq, Nat.compare_eq_lt]

theorem atMost_iff (h : Measured compare? slice? offset Over) (ha : Over a) (hb : Over b) :
    AtMost compare? a b ↔ offset a ≤ offset b := by
  rw [AtMost, h.compare?_eq ha hb, Option.some.injEq, Option.some.injEq, Nat.compare_eq_lt,
    Nat.compare_eq_eq]
  omega

theorem atMost_iff_precedes (h : Measured compare? slice? offset Over) (ha : Over a) (hb : Over b) :
    AtMost compare? a b ↔ Precedes a b :=
  (h.atMost_iff ha hb).trans (h.precedes_iff ha hb).symm

end Measured

variable [LawfulCursor C]

theorem passes_advanced (n : Nat) (a : C) : Passes a ((remaining a).take n) (advanced n a) := by
  induction n generalizing a with
  | zero => exact .stay
  | succ n ih =>
    cases h : next? a with
    | none =>
      rw [advanced_of_none h, remaining_of_none h]
      exact .stay
    | some tb =>
      rw [advanced_succ_of_some h, remaining_of_some h]
      exact .step h (ih tb.2)

theorem advanceBy_fst (n : Nat) (a : C) : (advanceBy n a).1 = min n (remaining a).length := by
  induction n generalizing a with
  | zero => simp [advanceBy]
  | succ n ih =>
    cases h : next? a with
    | none => simp [advanceBy, h, remaining_of_none h]
    | some tb => simp [advanceBy, h, remaining_of_some h, ih]

theorem Precedes.passes {a b : C} (h : Precedes a b) : Passes a (span b a) b := by
  have hpasses := passes_advanced (span b a).length a
  rwa [h.advanced_span, ← h.span_append_remaining, List.take_left] at hpasses

namespace Measured

variable {compare? : C → C → Option Ordering} {slice? : C → C → Option (List T)} {offset : C → Nat}
  {Over : C → Prop} {a b c : C}

theorem beq_iff (h : Measured compare? slice? offset Over) (ha : Over a) (hb : Over b) :
    (a == b) = true ↔ offset a = offset b := by
  constructor
  · intro he
    rcases h.total ha hb with hab | hba
    · rw [hab.beq_iff.mp he]
    · rw [hba.beq_iff.mp (LawfulCursor.beq_symm he)]
  · intro he
    have hab := (h.precedes_iff ha hb).mpr (Nat.le_of_eq he)
    have hba := (h.precedes_iff hb ha).mpr (Nat.le_of_eq he.symm)
    rw [hab.antisymm hba]
    exact LawfulCursor.beq_refl b

theorem le_iff (h : Measured compare? slice? offset Over) (ha : Over a) (hb : Over b) :
    AtMost compare? a b ↔ ∃ k, (b == advanced k a) = true := by
  rw [h.atMost_iff_precedes ha hb]
  constructor
  · rintro ⟨k, rfl⟩
    exact ⟨k, LawfulCursor.beq_refl _⟩
  · rintro ⟨k, hk⟩
    rcases h.total ha hb with hab | hba
    · exact hab
    · have hbk : Precedes b (advanced k a) := hba.trans ⟨k, rfl⟩
      exact ⟨k, (hbk.beq_iff.mp hk).symm⟩

theorem exactly_one (h : Measured compare? slice? offset Over) (ha : Over a) (hb : Over b) :
    ∃! o, Stands compare? a b o := by
  have hstands : ∀ o, Stands compare? a b o ↔ compare (offset a) (offset b) = o := by
    intro o
    cases o with
    | eq => rw [Nat.compare_eq_eq, ← h.beq_iff ha hb, Stands]
    | _ => rw [Stands, h.compare?_eq ha hb, Option.some.injEq]
  exact ⟨_, (hstands _).mpr rfl, fun o ho => ((hstands o).mp ho).symm⟩

theorem coherent (h : Measured compare? slice? offset Over) : Coherent compare? slice? Over where
  advanceBy_passes {a} n _ := by
    have hpasses : Passes a ((remaining a).take n) (advanceBy n a).2 := passes_advanced n a
    refine ⟨advanceBy_fst n a, _, hpasses, ?_⟩
    rw [advanceBy_fst, List.length_take]
  advanced_advanced {a} m n _ := (advanced_add m n a).symm
  le_iff := h.le_iff
  lt_iff {a b} ha hb := by
    rw [h.lt_iff ha hb, h.atMost_iff ha hb, Bool.eq_false_iff, ne_eq, h.beq_iff hb ha]
    omega
  exactly_one := h.exactly_one
  slice_passes {a b} ha hb hle := by
    have hab := (h.atMost_iff_precedes ha hb).mp hle
    exact ⟨_, h.slice?_eq hab, hab.passes, hab.span_append_remaining⟩
  slice_append {a b c} ha hb hc hle hle' := by
    have hab := (h.atMost_iff_precedes ha hb).mp hle
    have hbc := (h.atMost_iff_precedes hb hc).mp hle'
    refine ⟨_, _, h.slice?_eq hab, h.slice?_eq hbc, ?_⟩
    rw [h.slice?_eq (hab.trans hbc), hab.span_append hbc]
  slice_behind ha hb hlt := h.slice?_behind ((h.lt_iff hb ha).mp hlt)

end Measured

end Cursor

namespace TextCursor

variable {source : Nat} {text : String} {a b c : TextCursor}

theorem Reached.precedes (h : Reached source text c) : Precedes (.start source text) c := by
  induction h with
  | start => exact .refl _
  | stop => exact precedes_stop source text
  | @advance c d _ hd ih =>
    obtain ⟨xd, hn, rfl⟩ := Option.map_eq_some_iff.mp hd
    exact ih.trans ⟨1, Cursor.advanced_succ_of_some hn⟩
  | advanceBy n _ ih => exact ih.trans ⟨n, rfl⟩
  | advanced n _ ih => exact ih.trans ⟨n, rfl⟩

theorem measured (source : Nat) (text : String) :
    Cursor.Measured compare? slice? offset (Reached source text) where
  total ha hb := ha.precedes.total hb.precedes
  compare?_eq {a b} ha hb := by
    rw [compare?, ha.cuts.source_eq, hb.cuts.source_eq, beq_self_eq_true, if_pos rfl]
  offset_lt := offset_lt_of_next?
  slice?_eq := slice?_of_precedes
  slice?_behind {a b} hlt := by
    rw [slice?, Nat.sub_eq_zero_of_le (Nat.le_of_lt hlt), takeBytes?]

theorem takeBytes?_eq_some_iff {n : Nat} {s w : List Char} :
    takeBytes? n s = some w ↔ w <+: s ∧ (String.ofList w).utf8ByteSize = n := by
  constructor
  · intro h
    induction s generalizing n w with
    | nil =>
      cases n with
      | zero =>
        cases h
        exact ⟨List.nil_prefix, rfl⟩
      | succ n => cases h
    | cons x rest ih =>
      cases n with
      | zero =>
        cases h
        exact ⟨List.nil_prefix, rfl⟩
      | succ n =>
        rw [takeBytes?] at h
        split at h
        · next hx =>
          obtain ⟨v, hv, rfl⟩ := Option.map_eq_some_iff.mp h
          obtain ⟨hpre, hsize⟩ := ih hv
          refine ⟨List.cons_prefix_cons.mpr ⟨rfl, hpre⟩, ?_⟩
          rw [String.ofList_cons, String.utf8ByteSize_append, hsize]
          simp
          omega
        · cases h
  · rintro ⟨hpre, rfl⟩
    exact takeBytes?_of_prefix hpre

theorem isValid_iff_exists_before {n : Nat} :
    (⟨n⟩ : String.Pos.Raw).IsValid text ↔
      ∃ before, before <+: text.toList ∧ (String.ofList before).utf8ByteSize = n := by
  constructor
  · intro h
    obtain ⟨k, hk⟩ := String.Pos.Raw.isValid_iff_exists_take_toList.mp h
    exact ⟨_, List.take_prefix k _, hk.symm⟩
  · rintro ⟨before, hbefore, rfl⟩
    exact isValid_of_prefix hbefore

namespace Cuts

theorem isValid_iff (ha : Cuts source text a) {n : Nat} (hle : a.offset ≤ n) :
    (⟨n⟩ : String.Pos.Raw).IsValid text ↔
      ∃ w, w <+: a.rest ∧ (String.ofList w).utf8ByteSize = n - a.offset := by
  have hcounted := a.counted
  rw [isValid_iff_exists_before, ← ha.text_eq]
  constructor
  · rintro ⟨p, hp, rfl⟩
    obtain ⟨w, rfl⟩ : a.passed.reverse <+: p :=
      prefix_of_size_le (List.prefix_append _ a.rest) hp (by rwa [← hcounted])
    rw [List.prefix_append_right_inj] at hp
    rw [String.ofList_append, String.utf8ByteSize_append]
    exact ⟨w, hp, by omega⟩
  · rintro ⟨w, hw, hsize⟩
    refine ⟨a.passed.reverse ++ w, (List.prefix_append_right_inj _).mpr hw, ?_⟩
    rw [String.ofList_append, String.utf8ByteSize_append]
    omega

theorem slice?_eq_none_iff (ha : Cuts source text a) :
    a.slice? b = none ↔ a.offset ≤ b.offset ∧
      (text.utf8ByteSize < b.offset ∨ ¬ (⟨b.offset⟩ : String.Pos.Raw).IsValid text) := by
  by_cases hle : a.offset ≤ b.offset
  · have hnone : a.slice? b = none ↔ ¬ (⟨b.offset⟩ : String.Pos.Raw).IsValid text := by
      rw [ha.isValid_iff hle, ← not_iff_not, not_not, ← ne_eq, Option.ne_none_iff_exists']
      simp only [slice?, takeBytes?_eq_some_iff]
    have hsize : (⟨b.offset⟩ : String.Pos.Raw).IsValid text → b.offset ≤ text.utf8ByteSize :=
      String.Pos.Raw.IsValid.le_utf8ByteSize
    rw [hnone, and_iff_right hle, iff_or_self]
    intro hlt hvalid
    have := hsize hvalid
    omega
  · have hslice := (measured source text).slice?_behind (Nat.lt_of_not_le hle)
    simp [hslice, hle]

end Cuts

theorem apart (h : a.source ≠ b.source) : (a == b) = false ∧ a.compare? b = none := by
  have hsource : (a.source == b.source) = false := beq_false_of_ne h
  refine ⟨?_, ?_⟩
  · exact (congrArg (a.offset == b.offset && ·) hsource).trans (Bool.and_false _)
  · rw [compare?, hsource]
    rfl

end TextCursor

namespace ArrayCursor

variable {α : Type} {source : Nat} {items : Array α} {a b c : ArrayCursor α}

inductive Reached (source : Nat) (items : Array α) : ArrayCursor α → Prop
  | start : Reached source items (.start source items)
  | stop : Reached source items (.stop source items)
  | advance {c d : ArrayCursor α} : Reached source items c → Cursor.advance? c = some d →
      Reached source items d
  | advanceBy {c : ArrayCursor α} (n : Nat) : Reached source items c →
      Reached source items (Cursor.advanceBy n c).2
  | advanced {c : ArrayCursor α} (n : Nat) : Reached source items c →
      Reached source items (advanced n c)

structure Indexes (source : Nat) (items : Array α) (c : ArrayCursor α) : Prop where
  source_eq : c.source = source
  items_eq : c.items = items

theorem eq_of_index_eq (ha : Indexes source items a) (hb : Indexes source items b)
    (h : a.index = b.index) : a = b := by
  obtain ⟨source, items, index, hle⟩ := a
  obtain ⟨source', items', index', hle'⟩ := b
  obtain ⟨rfl, rfl⟩ := ha
  obtain ⟨rfl, rfl⟩ := hb
  obtain rfl : index = index' := h
  rfl

namespace Indexes

theorem advanced (n : Nat) (h : Indexes source items c) : Indexes source items (advanced n c) := by
  induction n generalizing c with
  | zero => exact h
  | succ n ih =>
    cases hn : Cursor.next? c with
    | none => rwa [Cursor.advanced_of_none hn]
    | some xd =>
      obtain ⟨hsource, hitems, -⟩ := eq_of_next? hn
      rw [Cursor.advanced_succ_of_some hn]
      exact ih ⟨hsource.trans h.source_eq, hitems.trans h.items_eq⟩

theorem precedes (ha : Indexes source items a) (hb : Indexes source items b)
    (hle : a.index ≤ b.index) : Precedes a b := by
  refine ⟨b.index - a.index, eq_of_index_eq (ha.advanced _) hb ?_⟩
  have hsize := b.index_le
  rw [hb.items_eq, ← ha.items_eq] at hsize
  rw [index_advanced]
  omega

end Indexes

theorem Reached.indexes (h : Reached source items c) : Indexes source items c := by
  induction h with
  | start => exact ⟨rfl, rfl⟩
  | stop => exact ⟨rfl, rfl⟩
  | @advance c d _ hd ih =>
    obtain ⟨xd, hn, rfl⟩ := Option.map_eq_some_iff.mp hd
    obtain ⟨hsource, hitems, -⟩ := eq_of_next? hn
    exact ⟨hsource.trans ih.source_eq, hitems.trans ih.items_eq⟩
  | advanceBy n _ ih => exact ih.advanced n
  | advanced n _ ih => exact ih.advanced n

theorem slice?_of_precedes (h : Precedes a b) : a.slice? b = some (span b a) := by
  have happend := h.span_append_remaining
  have hb : Indexes a.source a.items b := by
    obtain ⟨n, rfl⟩ := h
    exact Indexes.advanced n ⟨rfl, rfl⟩
  have hsize := b.index_le
  rw [hb.items_eq] at hsize
  have hlength : (span b a).length = b.index - a.index := by
    have hsum := congrArg List.length happend
    simp only [remaining, List.length_append, List.length_drop, Array.length_toList,
      hb.items_eq] at hsum
    omega
  have htake : (remaining a).take (b.index - a.index) = span b a := by
    rw [← hlength, ← happend, List.take_left]
  rw [slice?, if_pos hsize]
  exact congrArg some htake

theorem measured (source : Nat) (items : Array α) :
    Cursor.Measured compare? slice? index (Reached source items) where
  total {a b} ha hb :=
    (Nat.le_total a.index b.index).imp (ha.indexes.precedes hb.indexes)
      (hb.indexes.precedes ha.indexes)
  compare?_eq {a b} ha hb := by
    rw [compare?, ha.indexes.source_eq, hb.indexes.source_eq, beq_self_eq_true, if_pos rfl]
  offset_lt hn := by
    obtain ⟨-, -, hindex⟩ := eq_of_next? hn
    omega
  slice?_eq := slice?_of_precedes
  slice?_behind {a b} hlt := by
    have hsize := a.index_le
    rw [slice?, if_pos (by omega), Nat.sub_eq_zero_of_le (Nat.le_of_lt hlt), List.take_zero]

theorem Reached.slice?_eq_none_iff (ha : Reached source items a) :
    a.slice? b = none ↔ a.index ≤ b.index ∧ items.size < b.index := by
  have hsize := a.index_le
  rw [ha.indexes.items_eq] at hsize
  rw [slice?, ha.indexes.items_eq, ite_eq_right_iff]
  simp only [reduceCtorEq, imp_false]
  omega

theorem apart (h : a.source ≠ b.source) : (a == b) = false ∧ a.compare? b = none := by
  have hsource : (a.source == b.source) = false := beq_false_of_ne h
  refine ⟨?_, ?_⟩
  · exact (congrArg (a.index == b.index && ·) hsource).trans (Bool.and_false _)
  · rw [compare?, hsource]
    rfl

end ArrayCursor

/-- Over a text and over an array alike, steps, order and slices go together: one goes as far forward
as one asks to, or to the end; a cursor is at most another one exactly if steps lead from it there,
and of less, equal and greater exactly one holds; and a slice is what one passes on the way. Between
two sequences cursors are neither equal nor ordered, and a slice fails exactly if the offset it goes up
to lies ahead and cuts no place in the sequence that is sliced. -/
theorem cursors_cohere {α : Type} (source source' : Nat) (text text' : String)
    (items items' : Array α) :
    Cursor.Coherent TextCursor.compare? TextCursor.slice? (TextCursor.Reached source text) ∧
      Cursor.Coherent ArrayCursor.compare? ArrayCursor.slice? (ArrayCursor.Reached source items) ∧
      (source ≠ source' →
        (∀ a b, TextCursor.Reached source text a → TextCursor.Reached source' text' b →
          (a == b) = false ∧ a.compare? b = none ∧
            (a.slice? b = none ↔ a.offset ≤ b.offset ∧
              (text.utf8ByteSize < b.offset ∨ ¬ (⟨b.offset⟩ : String.Pos.Raw).IsValid text))) ∧
        ∀ a b, ArrayCursor.Reached source items a → ArrayCursor.Reached source' items' b →
          (a == b) = false ∧ a.compare? b = none ∧
            (a.slice? b = none ↔ a.index ≤ b.index ∧ items.size < b.index)) := by
  refine ⟨(TextCursor.measured source text).coherent, (ArrayCursor.measured source items).coherent,
    fun hne => ⟨fun a b ha hb => ?_, fun a b ha hb => ?_⟩⟩
  · have hsource : a.source ≠ b.source := by rwa [ha.cuts.source_eq, hb.cuts.source_eq]
    obtain ⟨hbeq, hcompare⟩ := TextCursor.apart hsource
    exact ⟨hbeq, hcompare, ha.cuts.slice?_eq_none_iff⟩
  · have hsource : a.source ≠ b.source := by rwa [ha.indexes.source_eq, hb.indexes.source_eq]
    obtain ⟨hbeq, hcompare⟩ := ArrayCursor.apart hsource
    exact ⟨hbeq, hcompare, ha.slice?_eq_none_iff⟩

theorem cursors_cohere_apart :
    (∃ ts, (TextCursor.start 0 "é1").slice? (.stop 0 "é1") = some ts ∧
        Cursor.Passes (TextCursor.start 0 "é1") ts (.stop 0 "é1")) ∧
      (TextCursor.start 0 "é1" == .start 1 "abcd") = false ∧
      ¬ (⟨1⟩ : String.Pos.Raw).IsValid "é1" ∧
      (TextCursor.start 0 "é1").slice? (textAt 1 "abcd" 4) = none ∧
      (ArrayCursor.start 0 #[1, 2]).compare? (.stop 1 #[3, 4, 5]) = none ∧
      (ArrayCursor.start 0 #[1, 2]).slice? (.stop 1 #[3, 4, 5]) = none := by
  obtain ⟨hcoherent, -, happart⟩ := cursors_cohere 0 1 "é1" "abcd" #[1, 2] #[3, 4, 5]
  obtain ⟨htext, harray⟩ := happart Nat.zero_ne_one
  obtain ⟨ts, hslice, hpasses, -⟩ := hcoherent.slice_passes .start .stop (.inl rfl)
  obtain ⟨hbeq, -, -⟩ := htext _ _ .start .start
  have hreached : ∀ n, TextCursor.Reached 1 "abcd" (textAt 1 "abcd" n) := fun n => .advanced n .start
  obtain ⟨-, -, hwithin⟩ := htext _ _ .start (hreached 1)
  obtain ⟨-, -, hbehind⟩ := htext _ _ .start (hreached 4)
  obtain ⟨-, hcompare, hstop⟩ := harray _ _ .start .stop
  have hinvalid : ¬ (⟨1⟩ : String.Pos.Raw).IsValid "é1" := by
    rcases (hwithin.mp rfl).2 with hlt | hinvalid
    · exact absurd hlt (by decide)
    · exact hinvalid
  exact ⟨⟨ts, hslice, hpasses⟩, hbeq, hinvalid, hbehind.mpr ⟨Nat.zero_le _, .inl (by decide)⟩,
    hcompare, hstop.mpr ⟨Nat.zero_le _, by decide⟩⟩

end TableAutomata
