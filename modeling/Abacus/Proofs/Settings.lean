import Abacus.CommandLine.Options
import Abacus.Proofs.Outcome
import Abacus.Proofs.Printed

/-!
# Settings

The bindings and the limit of a command line can be given again, each attached to its option, with
any contents behind the terminator. Nothing else gets into the options: every binding and every
limit in them was read from some text.
-/

namespace Abacus.Options

/-! ## Where settings come from -/

namespace Draft

variable {d d' : Draft} {text argument name : String} {setting : Setting}

/-- All that a draft has been told was written in a text. -/
structure Written (d : Draft) : Prop where
  vars : ∀ pair ∈ d.vars, ∃ text, binding text = .ok pair
  maxDepth : ∀ n ∈ d.maxDepth, ∃ text, limit? text = some n

namespace Written

theorem start : Written {} := ⟨by simp, by simp⟩

theorem set (h : d.Written) (hset : d.set text setting = .ok d') : d'.Written := by
  cases setting with
  | var =>
    rw [Draft.set] at hset
    split at hset
    next pair hpair =>
      cases hset
      refine ⟨fun p hp => ?_, h.maxDepth⟩
      rcases List.mem_append.mp hp with hp | hp
      · exact h.vars p hp
      · obtain rfl := List.mem_singleton.mp hp
        exact ⟨text, hpair⟩
    next => cases hset
  | maxDepth =>
    rw [Draft.set] at hset
    split at hset
    · cases hset
    · split at hset
      next n hn =>
        cases hset
        refine ⟨h.vars, fun m hm => ?_⟩
        obtain rfl : n = m := by simpa using hm
        exact ⟨text, hn⟩
      next => cases hset

theorem settle (h : d.Written) (hsettle : d.settle = .ok d') : d'.Written := by
  rw [Draft.settle] at hsettle
  split at hsettle
  · cases hsettle
    exact h
  · cases hsettle
  · have hrest : Written { d with pending := none } := ⟨h.vars, h.maxDepth⟩
    exact hrest.set hsettle

theorem addFile (h : d.Written) (hadd : d.addFile = .ok d') : d'.Written := by
  obtain ⟨e, he, hadd⟩ := exists_of_bind_eq_ok hadd
  split at hadd
  · cases hadd
  · cases hadd
    exact ⟨(h.settle he).vars, (h.settle he).maxDepth⟩

theorem addSetting (h : d.Written) {value : Option String}
    (hadd : d.addSetting setting value = .ok d') : d'.Written := by
  cases value with
  | none =>
    obtain ⟨e, he, hadd⟩ := exists_of_bind_eq_ok hadd
    cases hadd
    exact ⟨(h.settle he).vars, (h.settle he).maxDepth⟩
  | some text =>
    obtain ⟨e, he, hadd⟩ := exists_of_bind_eq_ok hadd
    exact (h.settle he).set hadd

theorem addContents (h : d.Written) (hadd : d.addContents text = .ok d') : d'.Written := by
  rw [Draft.addContents] at hadd
  split at hadd
  · cases hadd
  · obtain ⟨e, he, hadd⟩ := exists_of_bind_eq_ok hadd
    cases hadd
    exact ⟨(h.settle he).vars, (h.settle he).maxDepth⟩

theorem addPlain (h : d.Written) (hadd : d.addPlain text = .ok d') : d'.Written := by
  rw [Draft.addPlain] at hadd
  split at hadd
  · cases hadd
    exact ⟨h.vars, h.maxDepth⟩
  · exact h.addContents hadd

theorem addShort (h : d.Written) {letters : List Char}
    (hadd : d.addShort argument letters = .ok d') : d'.Written := by
  fun_induction Draft.addShort d argument letters with
  | case1 d =>
    cases hadd
    exact h
  | case2 d more ih =>
    obtain ⟨e, he, hadd⟩ := exists_of_bind_eq_ok hadd
    exact ih e (h.addFile he) hadd
  | case3 d => exact h.addSetting hadd
  | case4 d value => exact h.addSetting hadd
  | case5 d value _ _ => exact h.addSetting hadd
  | case6 d => cases hadd

theorem addLong (h : d.Written) {value : Option String}
    (hadd : d.addLong argument name value = .ok d') : d'.Written := by
  unfold Draft.addLong at hadd
  split at hadd
  · exact h.addFile hadd
  · cases hadd
  · exact h.addSetting hadd
  · exact h.addSetting hadd
  · cases hadd

theorem addSwitch (h : d.Written) {s : Switch} (hadd : d.addSwitch argument s = .ok d') :
    d'.Written := by
  cases s with
  | long name value => exact h.addLong hadd
  | short letters => exact h.addShort hadd

/-- Behind the terminator, where everything is contents. -/
theorem addRest (h : d.Written) {rest : List String}
    (hadd : rest.foldlM Draft.addContents d = .ok d') : d'.Written := by
  induction rest generalizing d with
  | nil =>
    cases hadd
    exact h
  | cons text rest ih =>
    rw [List.foldlM_cons] at hadd
    obtain ⟨e, he, hadd⟩ := exists_of_bind_eq_ok hadd
    exact ih (h.addContents he) hadd

/-- Whatever the arguments, no setting comes from anywhere else. -/
theorem addAll (h : d.Written) {arguments : List String} (hadd : d.addAll arguments = .ok d') :
    d'.Written := by
  induction arguments generalizing d with
  | nil => exact h.settle hadd
  | cons argument rest ih =>
    rw [Draft.addAll] at hadd
    split at hadd
    · obtain ⟨e, he, hadd⟩ := exists_of_bind_eq_ok hadd
      exact ih (h.addPlain he) hadd
    · obtain ⟨e, he, hadd⟩ := exists_of_bind_eq_ok hadd
      exact (h.addRest he).settle hadd
    · obtain ⟨e, he, hadd⟩ := exists_of_bind_eq_ok hadd
      exact ih (h.addSwitch he) hadd

end Written

end Draft

/-! ## Settings given again -/

/-- The arguments give the settings of some options to whatever contents stand behind them and a
terminator, as an expression and not as a file. -/
def Sets (o : Options) (settings : List String) : Prop :=
  ∀ contents : String, ofArguments (settings ++ ["--", contents]) =
    .ok { o with file := false, contents := contents }

/-- A setting and its value in one argument. -/
def Setting.argument (setting : Setting) (value : String) : String :=
  setting.name ++ "=" ++ value

theorem ofString_attached {name : List Char} (hne : name ≠ []) (hname : '=' ∉ name)
    (value : String) : Argument.ofString (String.ofList ('-' :: '-' :: name) ++ "=" ++ value) =
      .switch (.long (String.ofList name) (some value)) := by
  obtain ⟨c, more, rfl⟩ := List.exists_cons_of_ne_nil hne
  have htext : (String.ofList ('-' :: '-' :: c :: more) ++ "=" ++ value).toList =
      '-' :: '-' :: c :: (more ++ '=' :: value.toList) := by
    simp [String.toList_append]
  rw [Argument.ofString, htext]
  simp only
  rw [← List.cons_append, Text.splitAt?_append hname]
  simp

/-- A setting's argument is read as its option. -/
theorem Setting.exists_long (setting : Setting) (value : String) : ∃ name,
    Argument.ofString (setting.argument value) = .switch (.long name (some value)) ∧
    ∀ (d : Draft) (argument : String),
      d.addLong argument name (some value) = d.addSetting setting (some value) := by
  cases setting with
  | var =>
    have hform := @ofString_attached "var".toList (by decide) (by decide) value
    exact ⟨"var", hform, fun _ _ => rfl⟩
  | maxDepth =>
    have hform := @ofString_attached "max-depth".toList (by decide) (by decide) value
    exact ⟨"max-depth", hform, fun _ _ => rfl⟩

/-- Texts and what they bind. -/
abbrev Bindings (texts : List String) (pairs : List (String × Float)) : Prop :=
  List.Forall₂ (fun text pair => binding text = .ok pair) texts pairs

namespace Draft

variable {d d' : Draft}

theorem settle_of_none (hd : d.pending = none) : d.settle = .ok d := by
  rw [settle, hd]

/-- An attached value is set at once, where nothing is pending. -/
theorem addAll_argument (hd : d.pending = none) {value : String} {setting : Setting}
    (hset : d.set value setting = .ok d') (rest : List String) :
    d.addAll (setting.argument value :: rest) = d'.addAll rest := by
  obtain ⟨name, hform, hname⟩ := setting.exists_long value
  have hadd : d.addSwitch (setting.argument value) (.long name (some value)) = .ok d' := by
    rw [addSwitch, hname, addSetting, settle_of_none hd]
    exact hset
  rw [addAll, hform]
  simp only [hadd]
  rfl

theorem addAll_bindings (hd : d.pending = none) {texts : List String}
    {pairs : List (String × Float)} (h : Bindings texts pairs) (rest : List String) :
    d.addAll (texts.map Setting.var.argument ++ rest) =
      { d with vars := d.vars ++ pairs }.addAll rest := by
  induction h generalizing d with
  | nil => simp
  | @cons text pair texts pairs hpair _ ih =>
    have hset : d.set text .var = .ok { d with vars := d.vars ++ [pair] } := by
      rw [set, hpair]
    rw [List.map_cons, List.cons_append, addAll_argument hd hset,
      @ih { d with vars := d.vars ++ [pair] } hd, List.append_assoc, List.singleton_append]

theorem addAll_limit (hd : d.pending = none) (hnone : d.maxDepth = none) {text : String} {n : Nat}
    (hn : limit? text = some n) (rest : List String) :
    d.addAll (Setting.maxDepth.argument text :: rest) =
      { d with maxDepth := some n }.addAll rest := by
  refine addAll_argument hd ?_ rest
  rw [set, hnone, hn]
  rfl

theorem addAll_contents (hd : d.pending = none) (hnone : d.contents = none) (contents : String) :
    d.addAll ["--", contents] = .ok { d with contents := some contents } := by
  have hform : Argument.ofString "--" = .terminator := rfl
  have hadd : d.addContents contents = .ok { d with contents := some contents } := by
    rw [addContents, hnone, settle_of_none hd]
    rfl
  rw [addAll, hform]
  simp only [List.foldlM_cons, List.foldlM_nil, hadd]
  exact settle_of_none hd

end Draft

theorem exists_bindings {pairs : List (String × Float)}
    (h : ∀ pair ∈ pairs, ∃ text, binding text = .ok pair) : ∃ texts, Bindings texts pairs := by
  induction pairs with
  | nil => exact ⟨[], .nil⟩
  | cons pair pairs ih =>
    obtain ⟨⟨text, htext⟩, hpairs⟩ := List.forall_mem_cons.mp h
    obtain ⟨texts, htexts⟩ := ih hpairs
    exact ⟨text :: texts, .cons htext htexts⟩

/-- Bindings are set by the texts that they were read from. -/
theorem sets_bindings {o : Options} {texts : List String} (htexts : Bindings texts o.vars)
    (hlimit : o.maxDepth = defaultMaxDepth) : o.Sets (texts.map Setting.var.argument) := by
  intro contents
  rw [ofArguments, Draft.addAll_bindings rfl htexts, Draft.addAll_contents rfl rfl, hlimit]
  rfl

theorem sets_limit {o : Options} {texts : List String} {text : String}
    (htexts : Bindings texts o.vars) (htext : limit? text = some o.maxDepth) :
    o.Sets (texts.map Setting.var.argument ++ [Setting.maxDepth.argument text]) := by
  intro contents
  rw [ofArguments, List.append_assoc, Draft.addAll_bindings rfl htexts, List.singleton_append,
    Draft.addAll_limit rfl rfl htext, Draft.addAll_contents rfl rfl]
  rfl

/-- What a command line sets can be set again for other contents. -/
theorem exists_sets {arguments : List String} {o : Options} (h : ofArguments arguments = .ok o) :
    ∃ settings, o.Sets settings := by
  obtain ⟨d, hd, h⟩ := exists_of_bind_eq_ok h
  have hwritten := Draft.Written.start.addAll hd
  obtain ⟨texts, htexts⟩ := exists_bindings hwritten.vars
  split at h
  · cases h
  · cases h
    cases hlimit : d.maxDepth with
    | none => exact ⟨_, sets_bindings htexts rfl⟩
    | some n =>
      obtain ⟨text, htext⟩ := hwritten.maxDepth n hlimit
      exact ⟨_, sets_limit htexts htext⟩

end Abacus.Options
