import TableAutomata.Grammar.Abnf
import TableAutomata.Input.ArrayCursor
import TableAutomata.Input.TextCursor
import TableAutomata.Proofs.Exchange
import TableAutomata.Proofs.Level
import TableAutomata.Proofs.Mirror
import TableAutomata.Proofs.ScanSimulation

/-! A text and the array of its characters. Tables and scanners make the same of both, although
the one counts bytes and the other counts elements. -/

namespace TableAutomata

open Cursor (advanced remaining)
open Recording (Ends)

variable {Ctx Ctx' K : Type}

/-- The cursor at the `k`-th character of a text, or behind the last one. -/
def textAt (source : Nat) (text : String) (k : Nat) : TextCursor :=
  advanced k (.start source text)

def charsAt (source : Nat) (text : String) (k : Nat) : ArrayCursor Char :=
  advanced k (.start source text.toList.toArray)

/-- `c` stands in the text where `d` stands in the array of its characters. -/
structure SamePlace (source source' : Nat) (text : String) (c : TextCursor) (d : ArrayCursor Char) :
    Prop where
  index_le : d.index ≤ text.toList.length
  eq_charsAt : d = charsAt source' text d.index
  eq_textAt_iff : ∀ k ≤ text.toList.length, c = textAt source text k ↔ d.index = k
  offset_eq : c.offset = (String.ofList (text.toList.take d.index)).utf8ByteSize

theorem TextCursor.next?_of_rest {c : TextCursor} {x : Char} {xs : List Char} (h : c.rest = x :: xs) :
    ∃ d : TextCursor, Cursor.next? c = some (x, d) ∧ d.rest = xs ∧
      d.offset = c.offset + x.utf8Size := by
  obtain ⟨source, passed, rest, offset, position, counted, tracked⟩ := c
  obtain rfl : rest = x :: xs := h
  exact ⟨_, rfl, rfl, rfl⟩

theorem TextCursor.offset_advanced (k : Nat) (c : TextCursor) :
    (advanced k c).offset = c.offset + (String.ofList (c.rest.take k)).utf8ByteSize := by
  induction k generalizing c with
  | zero => simp
  | succ k ih =>
    cases hr : c.rest with
    | nil =>
      have hn : Cursor.next? c = none := by simp [Cursor.next?, next?, hr]
      simp [Cursor.advanced_of_none hn]
    | cons x xs =>
      obtain ⟨d, hn, hd, ho⟩ := next?_of_rest hr
      rw [Cursor.advanced_succ_of_some hn, ih, hd, ho]
      simp [String.ofList_cons, Nat.add_assoc]

theorem textAt_offset (source : Nat) (text : String) (k : Nat) :
    (textAt source text k).offset = (String.ofList (text.toList.take k)).utf8ByteSize := by
  rw [textAt, TextCursor.offset_advanced]
  exact Nat.zero_add _

theorem charsAt_index (source : Nat) (text : String) {k : Nat} (hk : k ≤ text.toList.length) :
    (charsAt source text k).index = k := by
  rw [charsAt, ArrayCursor.index_advanced]
  simp only [ArrayCursor.start, List.size_toArray]
  omega

theorem samePlace_of_abreast {source source' : Nat} {text : String} {c : TextCursor}
    {d : ArrayCursor Char}
    (h : Abreast (TextCursor.start source text) (.start source' text.toList.toArray)
      text.toList.length c d) : SamePlace source source' text c d := by
  obtain ⟨k, hk, rfl, rfl⟩ := h
  change SamePlace source source' text (textAt source text k) (charsAt source' text k)
  have hi : (charsAt source' text k).index = k := charsAt_index source' text hk
  refine ⟨by omega, by rw [hi], fun j hj => ?_, by rw [hi, textAt_offset]⟩
  rw [hi]
  constructor
  · intro h
    exact Cursor.advanced_inj (c := TextCursor.start source text) hk hj h
  · rintro rfl
    rfl

section

variable {C D T : Type} [Cursor C T] [LawfulCursor C] [Cursor D T] [LawfulCursor D] [BEq T] [LE T]
  [DecidableLE T] {b : C} {b' : D} {φ : (C → C → Ctx → Outcome C) → D → D → Ctx' → Outcome D}

theorem Outcome.Agree.position {R : C → D → Prop} {o : Outcome C} {p : Outcome D}
    (h : o.Agree R R p) : R o.position p.position := by
  cases ha : o.accepted with
  | true => exact h.accepted ha
  | false => exact h.rejected ha

theorem Matcher.CallbackFree.yields_same_tokens (hrem : remaining b = remaining b') (i j : Nat)
    (ctx : Ctx) (ctx' : Ctx') {m : Matcher C T Ctx} (h : m.CallbackFree) :
    ((∃ o, m.Yields ctx (advanced j b) (advanced i b) o) ↔
        ∃ p, (m.mapFunc φ).Yields ctx' (advanced j b') (advanced i b') p) ∧
      ∀ o p, m.Yields ctx (advanced j b) (advanced i b) o →
        (m.mapFunc φ).Yields ctx' (advanced j b') (advanced i b') p →
          o.Agree (Abreast b b' (remaining b).length) (Abreast b b' (remaining b).length) p := by
  have hm := h.alike_mapFunc (φ := φ)
  have hm' := hm.symm fun _ _ hmn => hmn.symm
  have hsim := hm.mirrored (Abreast.mirrors hrem) (abreast_advanced hrem j) ctx ctx'
  have hsim' := hm'.mirrored (Abreast.mirrors hrem.symm) (abreast_advanced hrem.symm j) ctx' ctx
  exact hsim.together hsim' (fun _ _ _ hp hp' => hp.unique hp') (abreast_advanced hrem i)
    (abreast_advanced hrem.symm i)

theorem Rule.paired_mapFunc {R : C → D → Prop} {R' : D → C → Prop} (hR : Cursor.Mirrors R)
    (hR' : Cursor.Mirrors R') {e : C} {e' : D} (he : R e e') (he' : R' e' e) (ctx : Ctx)
    (ctx' : Ctx') {r : Rule C T Ctx K} (hr : r.recognizer.table.CallbackFree) :
    r.Paired R R ctx ctx' e e' (r.mapFunc φ) ∧ (r.mapFunc φ).Paired R' R' ctx' ctx e' e r := by
  have hm : (r.recognizer.table.toMatcher r.recognizer.start).CallbackFree := hr
  have hsim := hm.alike_mapFunc (φ := φ)
  have hsim' := hsim.symm fun _ _ hmn => hmn.symm
  exact ⟨⟨rfl, rfl, hsim.mirrored hR he ctx ctx'⟩, rfl, rfl, hsim'.mirrored hR' he' ctx' ctx⟩

theorem Scanner.paired_same_tokens (hrem : remaining b = remaining b') (i j : Nat) (ctx : Ctx)
    (ctx' : Ctx') {rules : List (Rule C T Ctx K)}
    (hrules : ∀ r ∈ rules, r.recognizer.table.CallbackFree) :
    let R := Abreast b b' (remaining b).length
    let R' := Abreast b' b (remaining b').length
    let s := ofRules rules ctx (advanced j b) (advanced i b)
    let s' := ofRules (rules.map (Rule.mapFunc φ)) ctx' (advanced j b') (advanced i b')
    s.Paired R R s' ∧ s'.Paired R' R' s := by
  intro R R' s s'
  have he := abreast_advanced hrem j
  have he' := abreast_advanced hrem.symm j
  have hpair := fun r hr => Rule.paired_mapFunc (φ := φ) (Abreast.mirrors hrem)
    (Abreast.mirrors hrem.symm) he he' ctx ctx' (hrules r hr)
  constructor
  · refine ⟨Rule.Paired.byPriority ?_, he, abreast_advanced hrem i, rfl⟩
    exact List.forall₂_map_right_iff.mpr (List.forall₂_same.mpr fun r hr => (hpair r hr).1)
  · refine ⟨Rule.Paired.byPriority ?_, he', abreast_advanced hrem.symm i, rfl⟩
    exact List.forall₂_map_left_iff.mpr (List.forall₂_same.mpr fun r hr => (hpair r hr).2)

end

/-- Tables and scanners without callers' functions do not tell a text from the array of its
characters, wherever begin and bound lie in it: runs end together and with the same outcome at the
same place, and scanners yield the same items at the same places, call by call. -/
theorem text_chars_interchangeable
    (φ : (TextCursor → TextCursor → Ctx → Outcome TextCursor) → ArrayCursor Char →
      ArrayCursor Char → Ctx' → Outcome (ArrayCursor Char))
    (source source' : Nat) (text : String) (i j : Nat) (ctx : Ctx) (ctx' : Ctx') :
    (∀ (t : Table TextCursor Char Ctx) (start : Fin t.size), t.CallbackFree →
      ((∃ o, Level.Yields ctx (textAt source text j) ⟨t, start, textAt source text i⟩ o) ↔
          ∃ p, Level.Yields ctx' (charsAt source' text j)
            ⟨t.mapFunc φ, start, charsAt source' text i⟩ p) ∧
        ∀ o p, Level.Yields ctx (textAt source text j) ⟨t, start, textAt source text i⟩ o →
          Level.Yields ctx' (charsAt source' text j)
            ⟨t.mapFunc φ, start, charsAt source' text i⟩ p →
          o.accepted = p.accepted ∧ SamePlace source source' text o.position p.position) ∧
    ∀ rules : List (Rule TextCursor Char Ctx K),
      (∀ r ∈ rules, r.recognizer.table.CallbackFree) → ∀ n,
      let s := Scanner.ofRules rules ctx (textAt source text j) (textAt source text i)
      let s' := Scanner.ofRules (rules.map (Rule.mapFunc φ)) ctx' (charsAt source' text j)
        (charsAt source' text i)
      ((∃ xs last, xs.length = n ∧ s.Calls xs last) ↔
          ∃ ys last, ys.length = n ∧ s'.Calls ys last) ∧
        ∀ xs ys last last', xs.length = ys.length → s.Calls xs last → s'.Calls ys last' →
          List.Forall₂ (Option.Rel (Yield.Agree (SamePlace source source' text))) xs ys := by
  have hrem : remaining (TextCursor.start source text) =
      remaining (ArrayCursor.start source' text.toList.toArray) := rfl
  constructor
  · intro t start ht
    have hfree : (t.toMatcher start).CallbackFree := ht
    obtain ⟨hends, hagree⟩ := hfree.yields_same_tokens (φ := φ) hrem i j ctx ctx'
    refine ⟨hends, fun o p ho hp => ?_⟩
    have hop := hagree o p ho hp
    exact ⟨hop.accepted_eq, samePlace_of_abreast hop.position⟩
  · intro rules hrules n s s'
    obtain ⟨hs, hs'⟩ := Scanner.paired_same_tokens (φ := φ) hrem i j ctx ctx' hrules
    have hmeet : MeetTogether _ := fun _ _ _ _ => (Abreast.mirrors hrem).beq_eq
    have hmeet' : MeetTogether _ := fun _ _ _ _ => (Abreast.mirrors hrem.symm).beq_eq
    obtain ⟨hcalls, hagree⟩ := hs.together hmeet hmeet' hs' n
    refine ⟨hcalls, fun xs ys last last' hl hxs hys => ?_⟩
    exact (hagree xs ys last last' hl hxs hys).imp fun x y hxy =>
      optionRel_imp (fun _ _ h => h.imp fun _ _ => samePlace_of_abreast) hxy

def decimalTable : Table TextCursor Char Unit := Abnf.decimal

def decimalRule : Rule TextCursor Char Unit Unit :=
  ⟨(), .ofTable ⟨0, decimalTable⟩, 0⟩

def rejecting (_ : TextCursor → TextCursor → Unit → Outcome TextCursor) (c _ : ArrayCursor Char)
    (_ : Unit) : Outcome (ArrayCursor Char) :=
  .reject c

theorem text_chars_interchangeable_unmet :
    decimalTable.CallbackFree ∧ (∀ r ∈ [decimalRule], r.recognizer.table.CallbackFree) ∧
      (∃ p, Level.Yields () (charsAt 1 "é42" 0)
          ⟨decimalTable.mapFunc rejecting, decimalTable.first, charsAt 1 "é42" 1⟩ p ∧
        p.accepted = true ∧ SamePlace 0 1 "é42" (textAt 0 "é42" 3) p.position) ∧
      ∃ ys last, ys.length = 2 ∧
        (Scanner.ofRules ([decimalRule].map (Rule.mapFunc rejecting)) () (charsAt 1 "é42" 0)
          (charsAt 1 "é42" 1)).Calls ys last := by
  have ht : decimalTable.CallbackFree := by decide
  have hr : ∀ r ∈ [decimalRule], r.recognizer.table.CallbackFree := by
    intro r hr
    obtain rfl := List.mem_singleton.mp hr
    exact ht
  obtain ⟨hrun, hscan⟩ :=
    text_chars_interchangeable (K := Unit) rejecting 0 1 "é42" 1 0 () ()
  have ho : Level.Yields () (textAt 0 "é42" 0) ⟨decimalTable, decimalTable.first, textAt 0 "é42" 1⟩
      (.accept (textAt 0 "é42" 3)) := ⟨4, rfl⟩
  obtain ⟨hends, hagree⟩ := hrun decimalTable decimalTable.first ht
  obtain ⟨p, hp⟩ := hends.mp ⟨_, ho⟩
  obtain ⟨hacc, hplace⟩ := hagree _ p ho hp
  obtain ⟨hcalls, -⟩ := hscan [decimalRule] hr 2
  have htwo : ∃ xs last, xs.length = 2 ∧ (Scanner.ofRules [decimalRule] () (textAt 0 "é42" 0)
      (textAt 0 "é42" 1)).Calls xs last := ⟨_, _, rfl, .cons ⟨4, rfl⟩ (.cons ⟨4, rfl⟩ .nil)⟩
  exact ⟨ht, hr, ⟨p, hp, hacc.symm, hplace⟩, hcalls.mp htwo⟩

end TableAutomata
