import Mathlib.Data.List.Perm.Subperm
import Mathlib.Data.List.ProdSigma
import TableAutomata.Proofs.Advance

/-! Runs that never end. At every level a run can try only so many entries at so many places, and what
it does next depends on the entry and the place alone. So a run without callers' functions fails to
end exactly if at some level it tries one entry at one place twice, and a budget of one visit more
than there are tokens ahead tells which runs end. -/

namespace TableAutomata

open Cursor (Reach span)
open Recording (Ends)

variable {C T Ctx : Type} [Cursor C T]

def Visit.key (bound : C) (v : Visit C) : Nat × Nat :=
  (v.entry, (span bound v.cursor).length)

theorem length_le_of_keys_nodup {bound : C} {n r : Nat} {vs : List (Visit C)}
    (hn : ∀ v ∈ vs, v.entry < n) (hr : ∀ v ∈ vs, (span bound v.cursor).length ≤ r)
    (hnd : (vs.map (Visit.key bound)).Nodup) : vs.length ≤ n * (r + 1) := by
  have hsub : vs.map (Visit.key bound) ⊆ List.range n ×ˢ List.range (r + 1) := by
    intro k hk
    obtain ⟨v, hv, rfl⟩ := List.mem_map.mp hk
    have hlt := hr v hv
    exact List.mem_product.mpr ⟨List.mem_range.mpr (hn v hv), List.mem_range.mpr (by omega)⟩
  have hle := (hnd.subperm hsub).length_le
  rwa [List.length_map, List.length_product, List.length_range, List.length_range] at hle

namespace Trail

variable {es : List (Entry C T Ctx)} {tries : Matcher C T Ctx → C → Outcome C → Prop} {s s' : Target}
  {bound c d : C} {vs : List (Visit C)}

omit [Cursor C T] in
theorem entry_lt (h : Trail es tries s c vs s' d) {v : Visit C} (hv : v ∈ vs) :
    v.entry < es.length := by
  obtain ⟨as, bs, e, -, -, he, -⟩ := h.split_of_mem hv
  exact (List.getElem?_eq_some_iff.mp he).1

variable [LawfulCursor C]

theorem exists_loop_of_not_nodup
    (hstep : ∀ e ∈ es, ∀ c o, tries e.matcher c o → o.accepted = true → Reach bound c o.position)
    (h : Trail es tries s c vs s' d) (hnd : ¬ (vs.map (Visit.key bound)).Nodup) :
    ∃ as i x bs, Trail es tries s c as (.index i) x ∧ bs ≠ [] ∧
      Trail es tries (.index i) x bs (.index i) x := by
  induction h with
  | stay => exact absurd List.nodup_nil hnd
  | @visit i e c d o vs s he ho hr ih =>
    by_cases hmem : Visit.key bound ⟨i, c, o⟩ ∈ vs.map (Visit.key bound)
    · obtain ⟨w, hw, hkey⟩ := List.mem_map.mp hmem
      obtain ⟨as, bs, f, -, has, -⟩ := hr.split_of_mem hw
      have hfirst : Trail es tries (.index i) c (⟨i, c, o⟩ :: as) (.index w.entry) w.cursor :=
        .visit he ho has
      have hentry : w.entry = i := congrArg Prod.fst hkey
      have hcursor : w.cursor = c :=
        (hfirst.reach hstep).eq_of_length_eq (.refl bound c) (congrArg Prod.snd hkey)
      rw [hentry, hcursor] at hfirst
      exact ⟨[], i, c, _, .stay, List.cons_ne_nil _ _, hfirst⟩
    · have hnd' : ¬ (vs.map (Visit.key bound)).Nodup := fun hvs => hnd (List.nodup_cons.mpr ⟨hmem, hvs⟩)
      obtain ⟨as, j, x, bs, has, hne, hbs⟩ := ih hnd'
      exact ⟨_, j, x, bs, .visit he ho has, hne, hbs⟩

theorem length_le_of_no_loop
    (hstep : ∀ e ∈ es, ∀ c o, tries e.matcher c o → o.accepted = true → Reach bound c o.position)
    (h : Trail es tries s c vs s' d)
    (hno : ∀ as i x bs, Trail es tries s c as (.index i) x → bs ≠ [] →
      ¬ Trail es tries (.index i) x bs (.index i) x) :
    vs.length ≤ es.length * ((span bound c).length + 1) := by
  have hnd : (vs.map (Visit.key bound)).Nodup := by
    by_contra hnd
    obtain ⟨as, i, x, bs, has, hne, hbs⟩ := h.exists_loop_of_not_nodup hstep hnd
    exact hno as i x bs has hne hbs
  exact length_le_of_keys_nodup (fun v hv => h.entry_lt hv)
    (fun v hv => (h.reach_of_mem hstep hv).length_le) hnd

end Trail

variable [BEq T] [LE T] [DecidableLE T]

namespace Level

variable {ctx : Ctx} {bound : C} {top mid l : Level C T Ctx}

/-- The run tries an entry at a place, and some visits later it tries it there again. -/
def Repeats (ctx : Ctx) (bound : C) (l : Level C T Ctx) : Prop :=
  ∃ as i x bs,
    Trail l.table.entries (Matcher.Yields ctx bound) (.index l.start) l.cursor as (.index i) x ∧
      bs ≠ [] ∧
      Trail l.table.entries (Matcher.Yields ctx bound) (.index i) x bs (.index i) x

/-- How many visits a level has room for: each of its entries at each place from its begin on. -/
def room (bound : C) (l : Level C T Ctx) : Nat :=
  l.table.size * ((span bound l.cursor).length + 1)

theorem Within.trans (h : Within ctx bound top mid) (h' : Within ctx bound mid l) :
    Within ctx bound top l := by
  induction h' with
  | top => exact h
  | nested _ ht hm ih => exact .nested ih ht hm

theorem Within.callbackFree (h : Within ctx bound top l) (ht : top.table.CallbackFree) :
    l.table.CallbackFree := by
  refine h.hands_down (fun t t' i s hm ht => ?_) ht
  have hnested : (t'.toMatcher s).CallbackFree := hm ▸ ht i
  exact hnested

theorem Repeats.not_yields (h : l.Repeats ctx bound) : ¬ ∃ o, l.Yields ctx bound o := by
  rintro ⟨o, ho⟩
  have hdet : ∀ m d o o', Matcher.Yields ctx bound m d o → Matcher.Yields ctx bound m d o' → o = o' :=
    fun _ _ _ _ ho ho' => ho.unique ho'
  obtain ⟨as, i, x, bs, has, hne, hbs⟩ := h
  obtain ⟨vs, ⟨d, hvs⟩, -⟩ := yields_iff.mp ho
  obtain ⟨rest, rfl, hrest⟩ := has.prefix_of_terminal hdet hvs
  obtain ⟨rest', rfl, hrest'⟩ := hbs.prefix_of_terminal hdet hrest
  have heq : bs ++ rest' = rest' := hrest.terminal_unique hdet hrest'
  exact hne (List.append_left_eq_self.mp heq)

variable [LawfulCursor C]

theorem length_le_room {vs : List (Visit C)} {s : Target} {d : C} (hl : l.table.CallbackFree)
    (hno : ¬ l.Repeats ctx bound)
    (h : Trail l.table.entries (Matcher.Yields ctx bound) (.index l.start) l.cursor vs s d) :
    vs.length ≤ l.room bound := by
  have hle := h.length_le_of_no_loop hl.reach fun as i x bs has hne hbs =>
    hno ⟨as, i, x, bs, has, hne, hbs⟩
  simpa [room, Table.entries] using hle

theorem Path.length_le_room {vs : List (Visit C)} (h : l.Path ctx bound vs)
    (hl : l.table.CallbackFree) : vs.length ≤ l.room bound := by
  have hno : ¬ l.Repeats ctx bound := fun hr => hr.not_yields ⟨_, yields_iff.mpr ⟨vs, h, rfl⟩⟩
  obtain ⟨d, hvs⟩ := h
  exact Level.length_le_room hl hno hvs

omit [LawfulCursor C] in
theorem exists_path_or_trail (hy : ∀ i c, l.Tries ctx bound i c →
    ∃ o, (l.table.matcher i).Yields ctx bound c o) (n : Nat) :
    (∃ vs, l.Path ctx bound vs) ∨ ∃ vs, ∃ i : Fin l.table.size, ∃ d, vs.length = n ∧
      Trail l.table.entries (Matcher.Yields ctx bound) (.index l.start) l.cursor vs (.index i) d := by
  induction n with
  | zero => exact .inr ⟨[], l.start, l.cursor, rfl, .stay⟩
  | succ n ih =>
    rcases ih with hpath | ⟨vs, i, d, hlen, hvs⟩
    · exact .inl hpath
    · obtain ⟨o, ho⟩ := hy i d ⟨vs, hvs⟩
      have hone : Trail l.table.entries (Matcher.Yields ctx bound) (.index i) d [⟨i, d, o⟩]
          ((l.table.entry i).next o.accepted) (o.move d) :=
        .visit (Table.getElem?_entries_fin i) ho .stay
      rw [Table.next_entry] at hone
      cases hnext : (l.table.link i).next o.accepted with
      | none =>
        rw [hnext] at hone
        exact .inl ⟨_, _, hvs.append hone⟩
      | some j =>
        rw [hnext] at hone
        exact .inr ⟨_, j, _, by simp [hlen], hvs.append hone⟩

end Level

variable [LawfulCursor C]

theorem Matcher.CallbackFree.exists_yields_of_no_repeats {ctx : Ctx} {bound : C} {m : Matcher C T Ctx}
    (hm : m.CallbackFree) (c : C)
    (hno : ∀ t start, m = t.toMatcher start → ∀ l, Level.Within ctx bound ⟨t, start, c⟩ l →
      ¬ l.Repeats ctx bound) : ∃ o, m.Yields ctx bound c o := by
  induction m using Matcher.induction generalizing c with
  | single m read hr => exact ⟨_, (Matcher.yields_of_reading? hr).mpr rfl⟩
  | func f => cases hm
  | table t start ih =>
    let l : Level C T Ctx := ⟨t, start, c⟩
    have hnol : ∀ l', Level.Within ctx bound l l' → ¬ l'.Repeats ctx bound := hno t start rfl
    have hy : ∀ i d, l.Tries ctx bound i d → ∃ o, (t.matcher i).Yields ctx bound d o := by
      intro i d hi
      refine ih i (hm i) d fun t' s' heq l' hl' => hnol l' ?_
      exact (Level.Within.nested .top hi heq).trans hl'
    rcases Level.exists_path_or_trail hy (l.room bound + 1) with ⟨vs, hvs⟩ | ⟨vs, i, d, hlen, hvs⟩
    · exact ⟨_, Level.yields_iff.mpr ⟨vs, hvs, rfl⟩⟩
    · have ht : l.table.CallbackFree := hm
      have hle := Level.length_le_room ht (hnol l .top) hvs
      omega

theorem Level.yields_iff_no_repeats {ctx : Ctx} {bound : C} {l : Level C T Ctx}
    (hl : l.table.CallbackFree) :
    (∃ o, l.Yields ctx bound o) ↔
      ∀ l', Level.Within ctx bound l l' → ¬ l'.Repeats ctx bound := by
  constructor
  · rintro ⟨o, ho⟩ l' hl' hr
    exact hr.not_yields (hl'.exists_yields ho)
  · intro hno
    have hm : (l.table.toMatcher l.start).CallbackFree := hl
    refine hm.exists_yields_of_no_repeats l.cursor fun t start heq l' hl' => hno l' ?_
    rwa [← eq_of_toMatcher_eq heq l.cursor] at hl'

theorem Matcher.Yields.within {ctx : Ctx} {bound c : C} {m : Matcher C T Ctx} {o : Outcome C}
    (h : m.Yields ctx bound c o) (hm : m.CallbackFree) {visits : Nat}
    (hv : (span bound c).length < visits) : m.YieldsWithin visits ctx bound c o := by
  induction m using Matcher.induction generalizing c o with
  | single m read hr =>
    obtain rfl := (Matcher.yields_of_reading? hr).mp h
    rw [Matcher.YieldsWithin, Matcher.apply_of_reading? hr, Recording.value?_pure]
  | func f => cases hm
  | table t start ih =>
    obtain ⟨vs, ⟨d, hvs⟩, rfl⟩ := Table.yields_iff_path.mp h
    have ht : t.CallbackFree := hm
    have hroom : vs.length ≤ t.size * ((span bound c).length + 1) :=
      Level.Path.length_le_room (l := ⟨t, start, c⟩) ⟨d, hvs⟩ ht
    have hlen : vs.length ≤ t.size * visits :=
      Nat.le_trans hroom (Nat.mul_le_mul_left t.size hv)
    refine Table.value?_run_iff.mpr ⟨vs, d, hvs.mono_of_mem fun e he v hmem hy => ?_, hlen, rfl⟩
    obtain ⟨i, rfl⟩ := Table.mem_entries.mp he
    have hle := (hvs.reach_of_mem ht.reach hmem).length_le
    exact ih i hy (hm i) (by omega)

theorem run_ends_iff_within {t : Table C T Ctx} (ht : t.CallbackFree) (start : Fin t.size)
    (ctx : Ctx) (bound c : C) (o : Outcome C) :
    Ends (fun visits => t.run start visits ctx bound c) o ↔
      (t.run start ((span bound c).length + 1) ctx bound c).value? = some o := by
  have hm : (t.toMatcher start).CallbackFree := ht
  constructor
  · intro h
    exact Matcher.Yields.within h hm (Nat.lt_succ_self _)
  · intro h
    exact ⟨_, h⟩

/-- A run without callers' functions never ends exactly if, at some level, it tries an entry twice at
one place. If it ends, no level makes more visits than it has entries for each place from its begin
on; a level that has made as many and is still in its table never leaves it. And a run that does not
end on a budget of one visit more than there are tokens ahead does not end on any. -/
theorem diverges_iff_repeats {t : Table C T Ctx} (ht : t.CallbackFree) (start : Fin t.size)
    (ctx : Ctx) (bound c : C) :
    ((¬ ∃ o, Ends (fun visits => t.run start visits ctx bound c) o) ↔
        ∃ l, Level.Within ctx bound ⟨t, start, c⟩ l ∧ l.Repeats ctx bound) ∧
      ((∃ o, Ends (fun visits => t.run start visits ctx bound c) o) →
        ∀ l, Level.Within ctx bound ⟨t, start, c⟩ l →
          ∃ vs, l.Path ctx bound vs ∧
            vs.length ≤ l.table.size * ((span bound l.cursor).length + 1)) ∧
      (∀ l, Level.Within ctx bound ⟨t, start, c⟩ l → ∀ vs i d,
        Trail l.table.entries (Matcher.Yields ctx bound) (.index l.start) l.cursor vs (.index i) d →
        l.table.size * ((span bound l.cursor).length + 1) ≤ vs.length →
          ¬ ∃ ws, l.Path ctx bound ws) ∧
      ∀ o, Ends (fun visits => t.run start visits ctx bound c) o ↔
        (t.run start ((span bound c).length + 1) ctx bound c).value? = some o := by
  let top : Level C T Ctx := ⟨t, start, c⟩
  have hiff : (∃ o, top.Yields ctx bound o) ↔
      ∀ l, Level.Within ctx bound top l → ¬ l.Repeats ctx bound := Level.yields_iff_no_repeats ht
  refine ⟨?_, ?_, ?_, run_ends_iff_within ht start ctx bound c⟩
  · refine (not_congr hiff).trans ?_
    simp only [not_forall, not_not, exists_prop]
    exact Iff.rfl
  · rintro ⟨o, ho⟩ l hl
    obtain ⟨o', ho'⟩ := hl.exists_yields ho
    obtain ⟨vs, hvs, -⟩ := Level.yields_iff.mp ho'
    exact ⟨vs, hvs, hvs.length_le_room (hl.callbackFree ht)⟩
  · rintro l hl vs i d hvs hlen ⟨ws, hws⟩
    have hle := hws.length_le_room (hl.callbackFree ht)
    obtain ⟨d', hws⟩ := hws
    obtain ⟨rest, rfl, hrest⟩ := hvs.prefix_of_terminal (fun _ _ _ _ ho ho' => ho.unique ho') hws
    cases hrest with
    | visit =>
      simp only [Level.room, List.length_append, List.length_cons] at hle
      omega

def spinning : Table (ArrayCursor Char) Char Unit :=
  .ofEntries [.pass (.index 0) .terminal .always] (List.cons_ne_nil _ _)

def spinningWithin : Table (ArrayCursor Char) Char Unit :=
  .ofEntries [.accept .terminal .terminal spinning.toStep] (List.cons_ne_nil _ _)

theorem spinningWithin_diverges :
    spinningWithin.CallbackFree ∧
      ¬ ∃ o, Ends (fun visits => spinningWithin.run spinningWithin.first visits ()
        (ArrayCursor.stop 0 #['a']) (.start 0 #['a'])) o := by
  have ht : spinningWithin.CallbackFree := by decide
  let c : ArrayCursor Char := .start 0 #['a']
  let inner : Level (ArrayCursor Char) Char Unit := ⟨spinning, spinning.first, c⟩
  have hin : Level.Within () (.stop 0 #['a']) ⟨spinningWithin, spinningWithin.first, c⟩ inner :=
    .nested .top ⟨[], .stay⟩ rfl
  have hrep : inner.Repeats () (.stop 0 #['a']) :=
    ⟨[], 0, c, [⟨0, c, .accept c⟩], .stay, List.cons_ne_nil _ _, .visit rfl ⟨0, rfl⟩ .stay⟩
  exact ⟨ht, (diverges_iff_repeats ht _ () _ c).1.mpr ⟨inner, hin, hrep⟩⟩

end TableAutomata
