import TableAutomata.Program.NumberCheck
import TableAutomata.Proofs.CoreRules

/-! What the number checker says. Its verdicts are about the longest start of a text that is a
number, and a text is a number if that start is as long as the text, counted in bytes. -/

namespace TableAutomata

theorem eq_toList_of_size_eq {text : String} {w : List Char} (h : w <+: text.toList)
    (hsize : (String.ofList w).utf8ByteSize = text.utf8ByteSize) : w = text.toList := by
  obtain ⟨t, ht⟩ := h
  have hall : text.utf8ByteSize =
      (String.ofList w).utf8ByteSize + (String.ofList t).utf8ByteSize := by
    rw [← String.utf8ByteSize_append, ← String.ofList_append, ht, String.ofList_toList]
  have hnone : (String.ofList t).utf8ByteSize = 0 := by omega
  have ht' : t = [] := by simpa using hnone
  rw [← ht, ht', List.append_nil]

theorem Recognizer.exists_acceptedStart {r : Recognizer TextCursor Char Unit}
    {find : List Char → Option (List Char)} {place : List Char → Mark} {L : Language Char}
    (hr : r.table.CallbackFree)
    (hreads : (r.table.toMatcher r.start).Reads (Reading.finding find place))
    (hfinds : ∀ s, Finds L s (find s)) (text : String) :
    ∃ found, (r.acceptedStart text).value? = some found ∧ Finds L text.toList found := by
  have hfound := hfinds text.toList
  have hyields := hreads () (.stop 0 text) (.start 0 text)
  rw [TextCursor.span_stop_start] at hyields
  refine ⟨find text.toList, ?_, hfound⟩
  rw [Recognizer.value?_acceptedStart hr hyields]
  cases hf : find text.toList with
  | none =>
    rw [Reading.finding_of_none hf]
    rfl
  | some w =>
    rw [hf] at hfound
    rw [Reading.finding_of_some hf, Outcome.place_accept_ahead,
      ← TextCursor.slice?_advanced (c := .start 0 text) hfound.begins]
    rfl

namespace Program.NumberCheck

/-- What a verdict says of a text, about the language of the numbers. -/
structure Verdict.Tells (L : Language Char) (text : List Char) (v : Verdict) : Prop where
  number : v = .number ↔ text ∈ L
  start : ∀ w, v = .start w ↔ text ∉ L ∧ Longest L text w
  notANumber : v = .notANumber ↔ ∀ w, w <+: text → w ∉ L

section

variable {r : Recognizer TextCursor Char Unit} {L : Language Char} {input : String}

theorem tells_of_longest {w : List Char} (hw : Longest L input.toList w) :
    Verdict.Tells L input.toList
      (if (String.ofList w).utf8ByteSize = input.utf8ByteSize then .number else .start w) := by
  by_cases hsize : (String.ofList w).utf8ByteSize = input.utf8ByteSize
  · have hmem : input.toList ∈ L := eq_toList_of_size_eq hw.begins hsize ▸ hw.mem
    rw [if_pos hsize]
    refine ⟨by simp [hmem], fun u => ?_, ?_⟩
    · simp [hmem]
    · simp only [reduceCtorEq, false_iff, not_forall]
      exact ⟨_, List.prefix_rfl, not_not_intro hmem⟩
  · have hno : input.toList ∉ L := by
      intro hmem
      have hall := eq_of_begin hw.begins List.prefix_rfl hw.begins.length_le
        (hw.length_le _ List.prefix_rfl hmem)
      rw [hall, String.ofList_toList] at hsize
      exact hsize rfl
    rw [if_neg hsize]
    refine ⟨by simp [hno], fun u => ?_, ?_⟩
    · simp only [Verdict.start.injEq, hno, not_false_eq_true, true_and]
      exact ⟨fun h => h ▸ hw, fun hu => hw.unique hu⟩
    · simp only [reduceCtorEq, false_iff, not_forall]
      exact ⟨w, hw.begins, not_not_intro hw.mem⟩

theorem tells_of_none (hno : ∀ w, w <+: input.toList → w ∉ L) :
    Verdict.Tells L input.toList .notANumber := by
  refine ⟨?_, fun w => ?_, by simpa using hno⟩
  · simpa using hno _ List.prefix_rfl
  · simp only [reduceCtorEq, false_iff]
    exact fun h => hno w h.2.begins h.2.mem

variable (hstart : ∀ text : String,
  ∃ found, (r.acceptedStart text).value? = some found ∧ Finds L text.toList found)

include hstart

theorem exists_classify (input : String) :
    ∃ v, (classify r input).value? = some v ∧ v.Tells L input.toList := by
  obtain ⟨found, hvalue, hfound⟩ := hstart input
  cases found with
  | none =>
    refine ⟨_, ?_, tells_of_none hfound⟩
    rw [classify, Recording.value?_bind, hvalue]
    rfl
  | some w =>
    refine ⟨_, ?_, tells_of_longest hfound⟩
    rw [classify, Recording.value?_bind, hvalue]
    rfl

theorem exists_reportOn (input : String) :
    ∃ (report : Report) (v : Verdict), reportOn r input = some report ∧ v.Tells L input.toList ∧
      report.output = s!"{input}: {v.sentence}\n" ∧
      report.exitCode = if v = .number then 0 else 1 := by
  obtain ⟨v, hv, htells⟩ := exists_classify hstart input
  obtain ⟨⟨_, records⟩, hc, rfl⟩ := Option.map_eq_some_iff.mp hv
  exact ⟨_, _, congrArg (Option.map _) hc, htells, rfl, rfl⟩

theorem exists_ofEach (arguments : List String) :
    ∃ report verdicts, Report.ofEach (reportOn r) arguments = some report ∧
      List.Forall₂ (fun a v => Verdict.Tells L a.toList v) arguments verdicts ∧
      report.output =
        String.join (List.zipWith (fun a v => s!"{a}: {v.sentence}\n") arguments verdicts) ∧
      (report.exitCode = 0 ↔ ∀ a ∈ arguments, a.toList ∈ L) ∧
      (report.exitCode = 0 ∨ report.exitCode = 1) := by
  induction arguments with
  | nil => exact ⟨.empty, [], rfl, .nil, rfl, by simp [Report.empty], .inl rfl⟩
  | cons a rest ih =>
    obtain ⟨first, v, hfirst, htells, hout, hexit⟩ := exists_reportOn hstart a
    obtain ⟨report, verdicts, hrest, hall, hout', hexit', hcode⟩ := ih
    refine ⟨first.append report, v :: verdicts, ?_, .cons htells hall, ?_, ?_, ?_⟩
    · simp only [Report.ofEach, hfirst, hrest, Option.bind_eq_bind, Option.bind_some]
      rfl
    · rw [List.zipWith_cons_cons, String.join_cons, ← hout, ← hout']
      rfl
    · rw [List.forall_mem_cons, ← hexit', ← htells.number]
      simp only [Report.append, hexit]
      split <;> simp_all
    · simp only [Report.append, hexit]
      split <;> omega

end

/-- With arguments the grammar is built and each argument is reported once, in the order given: as
a number, by its longest start that is a number, or as neither. The exit code is 0 if all arguments
are numbers and 1 if not. -/
theorem run_tells (arguments : List String) (h : arguments ≠ []) :
    ∃ t report verdicts,
      Abnf.number? = .ok (t : Table TextCursor Char Unit) ∧ run arguments = some report ∧
      List.Forall₂ (fun a v => Verdict.Tells Abnf.CoreRule.number.language a.toList v) arguments
        verdicts ∧
      report.output =
        String.join (List.zipWith (fun a v => s!"{a}: {v.sentence}\n") arguments verdicts) ∧
      (report.exitCode = 0 ↔ ∀ a ∈ arguments, a.toList ∈ Abnf.CoreRule.number.language) ∧
      (report.exitCode = 0 ∨ report.exitCode = 1) := by
  let r : Recognizer TextCursor Char Unit := .ofTable ⟨0, Abnf.number⟩
  have hstart : ∀ text : String, ∃ found, (r.acceptedStart text).value? = some found ∧
      Finds Abnf.CoreRule.number.language text.toList found :=
    Recognizer.exists_acceptedStart Abnf.CoreRule.number.table_callbackFree Abnf.reads_number
      Abnf.CoreRule.number.finds
  obtain ⟨report, verdicts, heach, hall⟩ := exists_ofEach hstart arguments
  refine ⟨Abnf.number, report, verdicts, Abnf.number?_eq, ?_, hall⟩
  have hgiven : arguments.isEmpty = false := List.isEmpty_eq_false_iff.mpr h
  rw [run, Abnf.number?_eq]
  simpa only [hgiven, Bool.false_eq_true, if_false] using heach

theorem run_tells_three :
    ["0xbeef", "12é", ""] ≠ [] ∧
      ∃ report, run ["0xbeef", "12é", ""] = some report ∧ report.exitCode = 1 ∧
        report.output = "0xbeef: number\n12é: number prefix \"12\"\n: not a number\n" := by
  have hfinds := Abnf.CoreRule.number.finds
  have hnumber : Longest Abnf.CoreRule.number.language "0xbeef".toList "0xbeef".toList :=
    (hfinds _).eq_some_iff.mp rfl
  have hstart : Longest Abnf.CoreRule.number.language "12é".toList ['1', '2'] :=
    (hfinds _).eq_some_iff.mp rfl
  have hnone : ∀ w, w <+: "".toList → w ∉ Abnf.CoreRule.number.language :=
    (hfinds _).eq_none_iff.mp rfl
  have hno : "12é".toList ∉ Abnf.CoreRule.number.language := fun hmem =>
    absurd (hstart.length_le _ List.prefix_rfl hmem) (by decide)
  obtain ⟨-, report, verdicts, -, hrun, hall, hout, hexit, hcode⟩ :=
    run_tells ["0xbeef", "12é", ""] (List.cons_ne_nil _ _)
  have hexit' : report.exitCode ≠ 0 := fun h => hno (hexit.mp h "12é" (by simp))
  rw [List.forall₂_cons_left_iff] at hall
  obtain ⟨v, _, h₁, hall, rfl⟩ := hall
  rw [List.forall₂_cons_left_iff] at hall
  obtain ⟨w, _, h₂, hall, rfl⟩ := hall
  rw [List.forall₂_cons_left_iff] at hall
  obtain ⟨u, _, h₃, hall, rfl⟩ := hall
  cases hall
  obtain rfl := h₁.number.mpr hnumber.mem
  obtain rfl := (h₂.start _).mpr ⟨hno, hstart⟩
  obtain rfl := h₃.notANumber.mpr hnone
  refine ⟨List.cons_ne_nil _ _, report, hrun, hcode.resolve_left hexit', hout.trans ?_⟩
  rfl

end Program.NumberCheck

end TableAutomata
