import Abacus.Proofs.Lines
import Abacus.Proofs.Settings

/-!
# Scripts

A run on a file does what runs on its expressions do, made one after the other with the same
settings until one of them fails. Such a run for one expression knows nothing of the others.
-/

namespace Abacus
open Text

/-! ## What is printed -/

theorem Double.isNaN_or_isInf {x : Float} (hx : x.isFinite = false) :
    x.isNaN = true ∨ x.isInf = true := by
  have hx : x.toModel.unpack.isFinite = false := hx
  show x.toModel.unpack.isNaN = true ∨ x.toModel.unpack.isInf = true
  cases hu : x.toModel.unpack with
  | infinity => exact .inr rfl
  | notANumber => exact .inl rfl
  | zero | finite =>
    rw [hu] at hx
    cases hx

/-- Whatever a value is, it is written on one line. -/
theorem Double.feed_not_mem_write (x : Float) : '\n' ∉ Double.write x := by
  cases hx : x.isFinite with
  | true =>
    intro h
    have hblank := Double.not_blank_of_mem_write hx _ h
    exact absurd hblank (by decide)
  | false =>
    rw [Double.write]
    split
    · decide
    · rename_i hnan
      rw [if_pos ((Double.isNaN_or_isInf hx).resolve_left hnan)]
      split <;> decide

/-! ## Runs made in turn -/

namespace Outcome

/-- What some runs leave behind when they are made one after the other and none is made behind one
that fails. -/
inductive InTurn : List Outcome → Outcome → Prop
  | passed {runs : List Outcome} : (∀ r ∈ runs, r.status = 0) →
      InTurn runs ⟨0, String.join (runs.map output), ""⟩
  | failed {runs : List Outcome} {r : Outcome} (more : List Outcome) :
      (∀ r ∈ runs, r.status = 0) → r.status ≠ 0 →
      InTurn (runs ++ r :: more)
        ⟨r.status, String.join (runs.map output) ++ r.output, r.complaint⟩

namespace InTurn

variable {runs : List Outcome} {r left left' : Outcome}

/-- A run that passes comes before the others. -/
theorem cons (hr : r.status = 0) (h : InTurn runs left) :
    InTurn (r :: runs) { left with output := r.output ++ left.output } := by
  cases h with
  | passed hall =>
    have hjoin : r.output ++ String.join (runs.map output) =
        String.join ((r :: runs).map output) := by
      rw [List.map_cons, String.join_cons]
    rw [hjoin]
    exact .passed (List.forall_mem_cons.mpr ⟨hr, hall⟩)
  | @failed runs stop more hall hstop =>
    have hjoin : r.output ++ (String.join (runs.map output) ++ stop.output) =
        String.join ((r :: runs).map output) ++ stop.output := by
      rw [List.map_cons, String.join_cons, String.append_assoc]
    rw [hjoin, ← List.cons_append]
    exact .failed more (List.forall_mem_cons.mpr ⟨hr, hall⟩) hstop

/-- A run that fails is the last. -/
theorem stop (hr : r.status ≠ 0) (more : List Outcome) : InTurn (r :: more) r := by
  have hbefore : ∀ q ∈ ([] : List Outcome), q.status = 0 := by simp
  simpa using failed more hbefore hr

theorem of_nil (h : InTurn [] left) : left = ⟨0, "", ""⟩ := by
  generalize hnone : ([] : List Outcome) = all at h
  cases h with
  | passed =>
    subst hnone
    rfl
  | failed more => simp at hnone

/-- What is left behind is decided by the first of the runs and by the others, if it passes. -/
theorem of_cons (h : InTurn (r :: runs) left) : r.status ≠ 0 ∧ left = r ∨
    r.status = 0 ∧ ∃ rest, InTurn runs rest ∧
      left = { rest with output := r.output ++ rest.output } := by
  generalize hall : r :: runs = all at h
  cases h with
  | passed hpass =>
    subst hall
    obtain ⟨hr, hpass⟩ := List.forall_mem_cons.mp hpass
    refine .inr ⟨hr, _, .passed hpass, ?_⟩
    rw [List.map_cons, String.join_cons]
  | @failed before stop more hpass hstop =>
    cases before with
    | nil =>
      obtain ⟨rfl, rfl⟩ := List.cons.inj hall
      exact .inl ⟨hstop, by simp⟩
    | cons first before =>
      obtain ⟨rfl, rfl⟩ := List.cons.inj hall
      obtain ⟨hr, hpass⟩ := List.forall_mem_cons.mp hpass
      refine .inr ⟨hr, _, .failed more hpass hstop, ?_⟩
      rw [List.map_cons, String.join_cons, String.append_assoc]

theorem unique (h : InTurn runs left) (h' : InTurn runs left') : left = left' := by
  induction runs generalizing left left' with
  | nil => rw [h.of_nil, h'.of_nil]
  | cons r runs ih =>
    rcases h.of_cons with ⟨hr, rfl⟩ | ⟨hr, rest, hrest, rfl⟩
    · rcases h'.of_cons with ⟨-, rfl⟩ | ⟨hr', -⟩
      · rfl
      · exact absurd hr' hr
    · rcases h'.of_cons with ⟨hr', -⟩ | ⟨-, rest', hrest', rfl⟩
      · exact absurd hr hr'
      · rw [ih hrest hrest']

end InTurn

end Outcome

/-! ## Runs on a file -/

deriving instance DecidableEq for Options

namespace Options

/-- The value of an expression on a line of its own, or the message of its error. -/
inductive Answers (o : Options) (expression : List Char) : Outcome → Prop
  | value {x : Float} :
      o.calculator.textValueWith (Variables.lookup o.vars) expression = .ok x →
      '\n' ∉ Double.write x →
      Answers o expression ⟨0, String.ofList (Double.write x) ++ "\n", ""⟩
  | error {e : Failure} :
      o.calculator.textValueWith (Variables.lookup o.vars) expression = .error e →
      Answers o expression ⟨1, "", e.message ++ "\n"⟩

variable {o : Options} {expression : List Char}

theorem printAll_of_error {e : Failure}
    (h : o.calculator.textValueWith (Variables.lookup o.vars) expression = .error e)
    (more : List (List Char)) :
    o.printAll (expression :: more) = ⟨1, "", e.message ++ "\n"⟩ := by
  rw [printAll, h]

theorem printAll_of_ok {x : Float}
    (h : o.calculator.textValueWith (Variables.lookup o.vars) expression = .ok x)
    (more : List (List Char)) :
    o.printAll (expression :: more) = { o.printAll more with
      output := String.ofList (Double.write x) ++ "\n" ++ (o.printAll more).output } := by
  rw [printAll, h]

theorem printAll_singleton_of_ok {x : Float}
    (h : o.calculator.textValueWith (Variables.lookup o.vars) expression = .ok x) :
    o.printAll [expression] = ⟨0, String.ofList (Double.write x) ++ "\n", ""⟩ := by
  rw [printAll_of_ok h, printAll, String.append_empty]

theorem answers_printAll (o : Options) (expression : List Char) :
    o.Answers expression (o.printAll [expression]) := by
  cases h : o.calculator.textValueWith (Variables.lookup o.vars) expression with
  | error e =>
    rw [printAll_of_error h]
    exact .error h
  | ok x =>
    rw [printAll_singleton_of_ok h]
    exact .value h (Double.feed_not_mem_write x)

/-- Expressions evaluated in turn are the runs on each of them in turn. -/
theorem inTurn_printAll (o : Options) (expressions : List (List Char)) :
    Outcome.InTurn (expressions.map fun e => o.printAll [e]) (o.printAll expressions) := by
  induction expressions with
  | nil => exact .passed (by simp)
  | cons expression more ih =>
    rw [List.map_cons]
    cases h : o.calculator.textValueWith (Variables.lookup o.vars) expression with
    | error e =>
      rw [printAll_of_error h, printAll_of_error h]
      exact .stop Nat.one_ne_zero _
    | ok x =>
      rw [printAll_singleton_of_ok h, printAll_of_ok h]
      exact .cons rfl ih

/-- What is printed depends on the bindings and the limit alone. -/
theorem printAll_congr {o' : Options} (hvars : o.vars = o'.vars) (hmax : o.maxDepth = o'.maxDepth)
    (expressions : List (List Char)) : o.printAll expressions = o'.printAll expressions := by
  induction expressions with
  | nil => rfl
  | cons expression more ih => rw [printAll, printAll, calculator, calculator, hvars, hmax, ih]

end Options

/-- A run of the program for one expression, with some settings in front of it. -/
def runOn (settings : List String) (files : String → Option ByteArray) (expression : List Char) :
    Outcome :=
  run (settings ++ ["--", String.ofList expression]) files

theorem Options.Sets.runOn_eq {o : Options} {settings : List String} (h : o.Sets settings)
    (files : String → Option ByteArray) (expression : List Char) :
    runOn settings files expression = o.printAll [expression] := by
  rw [runOn, Abacus.run, h (String.ofList expression)]
  simp only [Options.run, String.toList_ofList]
  exact Options.printAll_congr rfl rfl [expression]

/-- An empty line is skipped, but an empty argument is worth zero. -/
example : runOn [] (fun _ => none) [] = ⟨0, "0\n", ""⟩ := by decide +kernel

theorem fromUTF8?_toUTF8 (text : String) : String.fromUTF8? text.toUTF8 = some text := by
  simp only [String.fromUTF8?, String.toUTF8_eq_toByteArray, dif_pos text.isValidUTF8]
  rfl

section file

variable {arguments : List String} {o : Options} {files : String → Option ByteArray}
  {script : String}

theorem run_file (harguments : Options.ofArguments arguments = .ok o) (hfile : o.file = true)
    (hscript : files o.contents = some script.toUTF8) :
    run arguments files = o.printAll (scriptExpressions script.toList) := by
  rw [run, harguments]
  simp only [Options.run, hfile, hscript, if_true, Option.bind_some, fromUTF8?_toUTF8]

/-- A run on a file comes to what the runs on its expressions come to in turn, and each of these
answers with the value or the error of its own expression. Only that there are settings to run them
with depends on how arguments are written; the rest holds of any reading of arguments by which
these ones ask for the file and the settings ask for the same bindings and limit. -/
theorem run_script (harguments : Options.ofArguments arguments = .ok o) (hfile : o.file = true)
    (hscript : files o.contents = some script.toUTF8) :
    ∃ es, (∀ es', Script script.toList es' ↔ es' = es) ∧ (∃ settings, o.Sets settings) ∧
      ∀ settings, o.Sets settings → ∀ files',
        (∀ e ∈ es, o.Answers e (runOn settings files' e)) ∧
        ∀ left, Outcome.InTurn (es.map (runOn settings files')) left ↔
          run arguments files = left := by
  refine ⟨scriptExpressions script.toList, fun es' => script_iff, Options.exists_sets harguments,
    fun settings hsets files' => ⟨fun e _ => ?_, fun left => ?_⟩⟩
  · rw [hsets.runOn_eq]
    exact o.answers_printAll e
  · have halone : runOn settings files' = fun e => o.printAll [e] := by
      funext e
      exact hsets.runOn_eq files' e
    have hturn := o.inTurn_printAll (scriptExpressions script.toList)
    rw [halone, run_file harguments hfile hscript]
    exact ⟨fun h => hturn.unique h, fun h => h ▸ hturn⟩

end file

/-- The last line is not reached, and neither the comment nor the blank line is an expression. -/
theorem run_script_stops :
    Options.ofArguments ["-v", "x=2", "-f", "--max-depth=1", "sums"] =
      .ok ⟨true, [("x", 2.0)], 1, "sums"⟩ ∧
    Options.Sets ⟨true, [("x", 2.0)], 1, "sums"⟩ ["--var=x=2", "--max-depth=1"] ∧
    run ["-v", "x=2", "-f", "--max-depth=1", "sums"]
        (fun _ => some "# sums\r\n\r\n 1+$x\t\r\n(3)\n((4))\n5".toUTF8) =
      ⟨1, "3\n3\n", "Parentheses are nested deeper than the limit of 1.\n"⟩ ∧
    Outcome.InTurn (["1+$x".toList, "(3)".toList, "((4))".toList, "5".toList].map
        (runOn ["--var=x=2", "--max-depth=1"] fun _ => none))
      ⟨1, "3\n3\n", "Parentheses are nested deeper than the limit of 1.\n"⟩ := by
  have harguments : Options.ofArguments ["-v", "x=2", "-f", "--max-depth=1", "sums"] =
      .ok ⟨true, [("x", 2.0)], 1, "sums"⟩ := by decide +kernel
  have hsets : Options.Sets ⟨true, [("x", 2.0)], 1, "sums"⟩ ["--var=x=2", "--max-depth=1"] := by
    have htexts : Options.Bindings ["x=2"] [("x", 2.0)] := .cons (by decide +kernel) .nil
    have hlimit : Options.limit? "1" = some 1 := by decide
    exact @Options.sets_limit ⟨true, [("x", 2.0)], 1, "sums"⟩ _ _ htexts hlimit
  have hexpressions :
      scriptExpressions "# sums\r\n\r\n 1+$x\t\r\n(3)\n((4))\n5".toList =
        ["1+$x".toList, "(3)".toList, "((4))".toList, "5".toList] := by decide +kernel
  have hrun : run ["-v", "x=2", "-f", "--max-depth=1", "sums"]
      (fun _ => some "# sums\r\n\r\n 1+$x\t\r\n(3)\n((4))\n5".toUTF8) =
        ⟨1, "3\n3\n", "Parentheses are nested deeper than the limit of 1.\n"⟩ := by
    rw [run_file harguments rfl rfl, hexpressions]
    decide +kernel
  obtain ⟨es, hes, -, h⟩ := @run_script _ _
    (fun _ => some "# sums\r\n\r\n 1+$x\t\r\n(3)\n((4))\n5".toUTF8) _ harguments rfl rfl
  have hsame := (hes _).mp (script_iff.mpr hexpressions.symm)
  have hturn := ((h _ hsets fun _ => none).2 _).mpr hrun
  rw [← hsame] at hturn
  exact ⟨harguments, hsets, hrun, hturn⟩

end Abacus
