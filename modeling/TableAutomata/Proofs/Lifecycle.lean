import Mathlib.Logic.Function.Basic
import TableAutomata.Proofs.Level

/-! Recognizers in use: made, copied, given other starts and other tables, and run, in any order. No
action leaves a recognizer without its start entry, no run comes to a link that leads nowhere, and an
action that is refused has no effect at all. -/

namespace TableAutomata

variable {C T Ctx : Type}

abbrev Family (C T Ctx : Type) : Type :=
  Nat → Option (Recognizer C T Ctx)

inductive Action (C T Ctx : Type) where
  | create (k : Nat) (s : SharedTable C T Ctx)
  | createAt (k : Nat) (s : SharedTable C T Ctx) (n : Nat)
  | setStart (k n : Nat)
  | swapTable (k : Nat) (s : SharedTable C T Ctx)
  | copy (k source : Nat)
  | exec (k visits : Nat) (ctx : Ctx) (bound c : C)
  | execFrom (k n visits : Nat) (ctx : Ctx) (bound c : C)

inductive Answer (C T Ctx : Type) where
  | done
  | previous (s : SharedTable C T Ctx)
  | ran (x : Recording C T Ctx (Outcome C))
  | refused (e : TableError)
  | unknown

def Action.target? : Action C T Ctx → Option Nat
  | create k _ | createAt k _ _ | setStart k _ | swapTable k _ | copy k _ => some k
  | exec .. | execFrom .. => none

/-- The start that an action asks a table for, and the size of that table. A new recognizer begins at
the first entry, and a copy or a run of a recognizer asks for nothing. -/
def Action.start? (F : Family C T Ctx) : Action C T Ctx → Option (Nat × Nat)
  | createAt _ s n => some (n, s.table.size)
  | setStart k n => (F k).map fun r => (n, r.table.size)
  | swapTable k s => (F k).map fun r => (r.start, s.table.size)
  | execFrom k n .. => (F k).map fun r => (n, r.table.size)
  | create .. | copy .. | exec .. => none

structure Recognizer.Built (r : Recognizer C T Ctx) : Prop where
  listed : ∃ es, Table.ofEntries? es = .ok r.table
  start_lt (es : List (Entry C T Ctx)) : Table.ofEntries? es = .ok r.table → r.start < es.length

theorem Recognizer.built (r : Recognizer C T Ctx) : r.Built where
  listed := ⟨_, Table.ofEntries?_entries r.table⟩
  start_lt es hes := by
    rw [← Table.entries_eq_of_ofEntries? hes, Table.length_entries]
    exact r.start.isLt

theorem Trail.dangling?_eq_none {t : Table C T Ctx} {tries : Matcher C T Ctx → C → Outcome C → Prop}
    {s s' : Target} {c d : C} {vs : List (Visit C)} (h : Trail t.entries tries s c vs s' d)
    (hs : s.dangling? t.size = none) : s'.dangling? t.size = none := by
  induction h with
  | stay => exact hs
  | visit he _ _ ih =>
    obtain ⟨hi, rfl⟩ := Table.getElem?_entries.mp he
    refine ih ?_
    rw [Table.next_entry]
    exact Target.dangling?_ofLink _

namespace Level

variable [Cursor C T] [BEq T] [LE T] [DecidableLE T]

/-- The table can be built, and of whatever list it was built: however far the run gets along the
links in the list, it never looks for an entry that the list does not have. -/
structure Guarded (ctx : Ctx) (bound : C) (l : Level C T Ctx) : Prop where
  listed : ∃ es, Table.ofEntries? es = .ok l.table
  in_range {es : List (Entry C T Ctx)} {vs : List (Visit C)} {s : Target} {d : C} :
    Table.ofEntries? es = .ok l.table →
      Trail es (Matcher.Yields ctx bound) (.index l.start) l.cursor vs s d →
        s.dangling? es.length = none

theorem guarded (ctx : Ctx) (bound : C) (l : Level C T Ctx) : l.Guarded ctx bound where
  listed := ⟨_, Table.ofEntries?_entries l.table⟩
  in_range hes h := by
    obtain rfl := Table.entries_eq_of_ofEntries? hes
    rw [Table.length_entries]
    exact h.dangling?_eq_none (Target.dangling?_ofLink (some l.start))

end Level

theorem Table.start?_of_lt {t : Table C T Ctx} {n : Nat} (h : n < t.size) : t.start? n = .ok ⟨n, h⟩ :=
  dif_pos h

namespace Family

def empty : Family C T Ctx :=
  fun _ => none

def on (F : Family C T Ctx) (k : Nat) (f : Recognizer C T Ctx → Answer C T Ctx × Family C T Ctx) :
    Answer C T Ctx × Family C T Ctx :=
  match F k with
  | none => (.unknown, F)
  | some r => f r

def set (F : Family C T Ctx) (k : Nat) (r : Recognizer C T Ctx) : Family C T Ctx :=
  Function.update F k (some r)

def settle (F : Family C T Ctx) (k : Nat) :
    Except TableError (Answer C T Ctx × Recognizer C T Ctx) → Answer C T Ctx × Family C T Ctx
  | .ok (a, r) => (a, F.set k r)
  | .error e => (.refused e, F)

section

variable [Cursor C T] [BEq T] [LE T] [DecidableLE T]

def step (F : Family C T Ctx) : Action C T Ctx → Answer C T Ctx × Family C T Ctx
  | .create k s => F.settle k (.ok (.done, .ofTable s))
  | .createAt k s n => F.settle k ((Recognizer.ofTableAt? s n).map (.done, ·))
  | .setStart k n => F.on k fun r => F.settle k ((r.setStart? n).map (.done, ·))
  | .swapTable k s => F.on k fun r => F.settle k ((r.swapTable? s).map fun (old, r) => (.previous old, r))
  | .copy k source => F.on source fun r => F.settle k (.ok (.done, r))
  | .exec k visits ctx bound c => F.on k fun r => (.ran (r.exec visits ctx bound c), F)
  | .execFrom k n visits ctx bound c => F.on k fun r =>
    match r.execFrom? n visits ctx bound c with
    | .ok x => (.ran x, F)
    | .error e => (.refused e, F)

def after (F : Family C T Ctx) (as : List (Action C T Ctx)) : Family C T Ctx :=
  as.foldl (fun G a => (G.step a).2) F

end

variable {F F' : Family C T Ctx} {k : Nat} {r : Recognizer C T Ctx}

theorem set_self (F : Family C T Ctx) (k : Nat) (r : Recognizer C T Ctx) : F.set k r k = some r := by
  rw [set, Function.update_self]

theorem set_of_ne {j : Nat} (h : j ≠ k) : F.set k r j = F j := by
  rw [set, Function.update_of_ne h]

theorem set_set_eq_self (hr : F k = some r) (r' : Recognizer C T Ctx) : (F.set k r').set k r = F := by
  rw [set, set, Function.update_idem, ← hr, Function.update_eq_self]

theorem on_of_some (hr : F k = some r) (f : Recognizer C T Ctx → Answer C T Ctx × Family C T Ctx) :
    F.on k f = f r := by
  rw [on, hr]

theorem on_of_none (hr : F k = none) (f : Recognizer C T Ctx → Answer C T Ctx × Family C T Ctx) :
    F.on k f = (.unknown, F) := by
  rw [on, hr]

variable [Cursor C T] [BEq T] [LE T] [DecidableLE T]

theorem step_createAt (F : Family C T Ctx) (k : Nat) (s : SharedTable C T Ctx) (n : Nat) :
    F.step (.createAt k s n) =
      if h : n < s.table.size then (.done, F.set k ⟨s, ⟨n, h⟩⟩)
      else (.refused (.startOutOfRange n s.table.size), F) := by
  by_cases h : n < s.table.size <;>
    simp [step, Recognizer.ofTableAt?, Table.start?, h, Except.map, settle]

theorem step_setStart (hr : F k = some r) (n : Nat) :
    F.step (.setStart k n) = F.step (.createAt k r.shared n) :=
  on_of_some hr _

theorem step_swapTable (hr : F k = some r) (s : SharedTable C T Ctx) :
    F.step (.swapTable k s) =
      if h : r.start < s.table.size then (.previous r.shared, F.set k ⟨s, ⟨r.start, h⟩⟩)
      else (.refused (.startOutOfRange r.start s.table.size), F) := by
  rw [step, on_of_some hr]
  by_cases h : r.start.val < s.table.size <;>
    simp [Recognizer.swapTable?, Recognizer.ofTableAt?, Table.start?, h, Except.map, settle]

theorem step_exec (hr : F k = some r) (visits : Nat) (ctx : Ctx) (bound c : C) :
    F.step (.exec k visits ctx bound c) = (.ran (r.exec visits ctx bound c), F) :=
  on_of_some hr _

theorem step_execFrom (hr : F k = some r) (n visits : Nat) (ctx : Ctx) (bound c : C) :
    F.step (.execFrom k n visits ctx bound c) =
      if h : n < r.table.size then (.ran (r.table.run ⟨n, h⟩ visits ctx bound c), F)
      else (.refused (.startOutOfRange n r.table.size), F) := by
  rw [step, on_of_some hr]
  by_cases h : n < r.table.size <;>
    simp [Recognizer.execFrom?, Table.runFrom?, Table.start?, h, Except.map]

/-- The action is not refused, and gives no more than one name to another recognizer. -/
def Completes (F : Family C T Ctx) (a : Action C T Ctx) : Prop :=
  (∀ e, (F.step a).1 ≠ .refused e) ∧
    ((F.step a).2 = F ∨ ∃ k r, a.target? = some k ∧ (F.step a).2 = F.set k r)

variable {a : Action C T Ctx} {x : Answer C T Ctx}

theorem Completes.of_set (ha : F.step a = (x, F.set k r)) (ht : a.target? = some k)
    (hx : ∀ e, x ≠ .refused e) : F.Completes a := by
  rw [Completes, ha]
  exact ⟨hx, .inr ⟨k, r, ht, rfl⟩⟩

theorem Completes.of_same (ha : F.step a = (x, F)) (hx : ∀ e, x ≠ .refused e) : F.Completes a := by
  rw [Completes, ha]
  exact ⟨hx, .inl rfl⟩

/-- An action that asks for a start out of range is refused and changes nothing; any other completes. -/
def Decides (F : Family C T Ctx) (a : Action C T Ctx) : Prop :=
  (∃ n len, a.start? F = some (n, len) ∧ len ≤ n ∧
      F.step a = (.refused (.startOutOfRange n len), F)) ∨
    (∀ n len, a.start? F = some (n, len) → n < len) ∧ F.Completes a

theorem decides_of_dite {n len : Nat} {y : n < len → Answer C T Ctx × Family C T Ctx}
    (hs : a.start? F = some (n, len))
    (ha : F.step a = if h : n < len then y h else (.refused (.startOutOfRange n len), F))
    (hy : ∀ h, F.step a = y h → F.Completes a) : F.Decides a := by
  by_cases h : n < len
  · rw [dif_pos h] at ha
    refine .inr ⟨fun m len' hm => ?_, hy h ha⟩
    obtain ⟨rfl, rfl⟩ := Prod.mk.inj (Option.some.inj (hs.symm.trans hm))
    exact h
  · rw [dif_neg h] at ha
    exact .inl ⟨n, len, hs, Nat.not_lt.mp h, ha⟩

theorem decides_of_none (hs : a.start? F = none) (ha : F.Completes a) : F.Decides a := by
  refine .inr ⟨fun n len hn => ?_, ha⟩
  cases hs.symm.trans hn

theorem decides_of_on {f : Recognizer C T Ctx → Answer C T Ctx × Family C T Ctx}
    (ha : F.step a = F.on k f) (hs : F k = none → a.start? F = none)
    (hr : ∀ r, F k = some r → F.Decides a) : F.Decides a := by
  cases h : F k with
  | none => exact decides_of_none (hs h) (.of_same (ha.trans (on_of_none h f)) nofun)
  | some r => exact hr r h

theorem decides (F : Family C T Ctx) (a : Action C T Ctx) : F.Decides a := by
  cases a with
  | create k s => exact decides_of_none rfl (.of_set rfl rfl nofun)
  | createAt k s n =>
    exact decides_of_dite rfl (F.step_createAt k s n) fun _ ha => .of_set ha rfl nofun
  | setStart k n =>
    refine decides_of_on rfl (fun hr => congrArg (Option.map _) hr) fun r hr => ?_
    exact decides_of_dite (congrArg (Option.map _) hr)
      ((step_setStart hr n).trans (F.step_createAt k r.shared n)) fun _ ha => .of_set ha rfl nofun
  | swapTable k s =>
    refine decides_of_on rfl (fun hr => congrArg (Option.map _) hr) fun r hr => ?_
    exact decides_of_dite (congrArg (Option.map _) hr) (step_swapTable hr s)
      fun _ ha => .of_set ha rfl nofun
  | copy k source =>
    refine decides_of_on rfl (fun _ => rfl) fun r hr => ?_
    exact decides_of_none rfl (.of_set (on_of_some hr _) rfl nofun)
  | exec k visits ctx bound c =>
    refine decides_of_on rfl (fun _ => rfl) fun r hr => ?_
    exact decides_of_none rfl (.of_same (step_exec hr visits ctx bound c) nofun)
  | execFrom k n visits ctx bound c =>
    refine decides_of_on rfl (fun hr => congrArg (Option.map _) hr) fun r hr => ?_
    exact decides_of_dite (congrArg (Option.map _) hr) (step_execFrom hr n visits ctx bound c)
      fun _ ha => .of_same ha nofun

theorem refused_iff {e : TableError} : (F.step a).1 = .refused e ↔
    ∃ n len, a.start? F = some (n, len) ∧ len ≤ n ∧ e = .startOutOfRange n len := by
  rcases F.decides a with ⟨n, len, hs, hle, ha⟩ | ⟨hlt, hno, -⟩
  · constructor
    · intro he
      rw [ha] at he
      cases he
      exact ⟨n, len, hs, hle, rfl⟩
    · rintro ⟨n', len', hs', -, rfl⟩
      obtain ⟨rfl, rfl⟩ := Prod.mk.inj (Option.some.inj (hs.symm.trans hs'))
      rw [ha]
  · constructor
    · intro he
      exact absurd he (hno e)
    · rintro ⟨n, len, hs, hle, -⟩
      exact absurd (hlt n len hs) (Nat.not_lt.mpr hle)

theorem step_of_refused {e : TableError} (h : (F.step a).1 = .refused e) : (F.step a).2 = F := by
  rcases F.decides a with ⟨n, len, -, -, ha⟩ | ⟨-, hno, -⟩
  · rw [ha]
  · exact absurd h (hno e)

theorem step_of_ne_target (h : a.target? ≠ some k) : (F.step a).2 k = F k := by
  rcases F.decides a with ⟨n, len, -, -, ha⟩ | ⟨-, -, hsame | ⟨j, r, hj, ha⟩⟩
  · rw [ha]
  · rw [hsame]
  · rw [ha, set_of_ne]
    rintro rfl
    exact h hj

theorem after_of_ne_target {as : List (Action C T Ctx)} (h : ∀ a ∈ as, a.target? ≠ some k) :
    F.after as k = F k := by
  induction as generalizing F with
  | nil => rfl
  | cons a as ih =>
    have hrest : (F.step a).2.after as k = (F.step a).2 k := ih fun b hb => h b (List.mem_cons_of_mem _ hb)
    exact hrest.trans (step_of_ne_target (h a List.mem_cons_self))

theorem swap_back {s old : SharedTable C T Ctx} (h : F.step (.swapTable k s) = (.previous old, F')) :
    ∃ r, F k = some r ∧ old = r.shared ∧ F'.step (.swapTable k old) = (.previous s, F) := by
  cases hr : F k with
  | none =>
    rw [step, on_of_none hr] at h
    cases h
  | some r =>
    rw [step_swapTable hr] at h
    by_cases hlt : r.start < s.table.size
    · rw [dif_pos hlt] at h
      obtain ⟨hold, rfl⟩ := Prod.mk.inj h
      cases hold
      refine ⟨r, rfl, rfl, ?_⟩
      rw [step_swapTable (set_self F k _), dif_pos r.start.isLt, set_set_eq_self hr]
    · rw [dif_neg hlt] at h
      cases h

theorem exec_eq_execFrom (hr : F k = some r) (visits : Nat) (ctx : Ctx) (bound c : C) :
    F.step (.exec k visits ctx bound c) = (.ran (r.exec visits ctx bound c), F) ∧
      F.step (.execFrom k r.start visits ctx bound c) = (.ran (r.exec visits ctx bound c), F) ∧
      r.table.runFrom? r.start visits ctx bound c = .ok (r.exec visits ctx bound c) := by
  have hrun : r.table.runFrom? r.start visits ctx bound c = .ok (r.exec visits ctx bound c) := by
    rw [Table.runFrom?, Table.start?_of_lt (t := r.table) r.start.isLt]
    rfl
  refine ⟨step_exec hr visits ctx bound c, ?_, hrun⟩
  rw [step, on_of_some hr, Recognizer.execFrom?, hrun]

end Family

/-- After any sequence of actions, every recognizer has its start entry. No run, of a recognizer, of a
table by itself or of a nested table, looks for an entry that is not there. An action is refused exactly
if the start it asks for is out of range, and then nothing has changed. A table that was swapped out can
be swapped back, and all is as before. Actions with other targets leave a recognizer alone. And a run of
a recognizer is a run of its table from its start. -/
theorem family_sound [Cursor C T] [BEq T] [LE T] [DecidableLE T] (as : List (Action C T Ctx)) :
    let F := Family.empty.after as
    (∀ k r, F k = some r → r.Built) ∧
      (∀ (ctx : Ctx) (bound : C) (l : Level C T Ctx), l.Guarded ctx bound) ∧
      (∀ a e, (F.step a).1 = .refused e ↔
        ∃ n len, a.start? F = some (n, len) ∧ len ≤ n ∧ e = .startOutOfRange n len) ∧
      (∀ a e, (F.step a).1 = .refused e → (F.step a).2 = F) ∧
      (∀ k s old F', F.step (.swapTable k s) = (.previous old, F') →
        ∃ r, F k = some r ∧ old = r.shared ∧ F'.step (.swapTable k old) = (.previous s, F)) ∧
      (∀ k bs, (∀ a ∈ bs, a.target? ≠ some k) → F.after bs k = F k) ∧
      ∀ k r, F k = some r → ∀ visits ctx bound c,
        F.step (.exec k visits ctx bound c) = (.ran (r.exec visits ctx bound c), F) ∧
          F.step (.execFrom k r.start visits ctx bound c) = (.ran (r.exec visits ctx bound c), F) ∧
          r.table.runFrom? r.start visits ctx bound c = .ok (r.exec visits ctx bound c) :=
  ⟨fun _ r _ => r.built, fun _ _ l => l.guarded _ _, fun _ _ => Family.refused_iff,
    fun _ _ => Family.step_of_refused, fun _ _ _ _ => Family.swap_back,
    fun _ _ => Family.after_of_ne_target, fun _ _ => Family.exec_eq_execFrom⟩

def letters : List (Action (ArrayCursor Char) Char Unit) :=
  [.create 0 ⟨0, Abnf.alpha⟩, .copy 1 0, .setStart 0 1, .swapTable 1 ⟨1, digitsTable⟩]

theorem family_sound_letters :
    let F := Family.empty.after letters
    (∃ r, F 0 = some r ∧ r.start.val = 1) ∧
      (F.step (.swapTable 0 ⟨1, digitsTable⟩)).1 = .refused (.startOutOfRange 1 1) ∧
      (F.step (.swapTable 0 ⟨1, digitsTable⟩)).2 = F ∧
      ∃ F', (F.step (.swapTable 1 ⟨0, Abnf.alpha⟩)) = (.previous ⟨1, digitsTable⟩, F') ∧
        F'.step (.swapTable 1 ⟨1, digitsTable⟩) = (.previous ⟨0, Abnf.alpha⟩, F) := by
  obtain ⟨-, -, hrefused, hsame, hswap, -⟩ := family_sound letters
  have hout : ((Family.empty.after letters).step (.swapTable 0 ⟨1, digitsTable⟩)).1 =
      .refused (.startOutOfRange 1 1) := (hrefused _ _).mpr ⟨1, 1, rfl, Nat.le_refl 1, rfl⟩
  obtain ⟨r, -, -, hback⟩ := hswap 1 ⟨0, Abnf.alpha⟩ ⟨1, digitsTable⟩ _ rfl
  exact ⟨⟨_, rfl, rfl⟩, hout, hsame _ _ hout, _, rfl, hback⟩

end TableAutomata
