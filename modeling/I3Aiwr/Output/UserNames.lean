import I3Aiwr.Lib.Rounds
import I3Aiwr.Tree.Resize

/-!
# The user's list of outputs

`user_output_names_find_next` in `src/src/commands.c` goes from the current output to the next one of a
list of names. A name may be any of the names of an output, or `primary`, and `get_output_from_string`
knows them all; but the place of the current output is where its first name is.

## Main definitions

* `getOutputFromString`
* `userOutputNamesFindNext`
* `Cycles`: moving again and again goes round the outputs of the list
* `Recognised`: the place that is found is that of the output

## Main results

* `userOutputNamesFindNext_eq`: the output that follows those up to the first name
* `cyclesOutputs_iff`
* `recognised_iff`: when an output is recognised whose first name is no other's
* `not_cycles_primary`: a list of `primary` and another output
-/

namespace I3

deriving instance DecidableEq for Output

/-- `get_output_next_wrap` -/
def getOutputNextWrap (outputs : List Output) (direction : Direction) (current : Output) : Output :=
  ((getOutputNext outputs direction current .closest).or
    (getOutputNext outputs direction.opposite current .farthest)).getD current

/-- `output_primary_name` -/
def outputPrimaryName (output : Output) : String := output.names.headD ""

section UserNames

-- `focusedOutput` is the output of the focused container
variable (outputs : List Output) (focusedOutput : Output)

/-- `get_output_from_string` -/
def getOutputFromString (currentOutput : Output) (outputStr : String) : Option Output :=
  if sameName outputStr "current" then some focusedOutput
  else if sameName outputStr "left" then some (getOutputNextWrap outputs .left currentOutput)
  else if sameName outputStr "right" then some (getOutputNextWrap outputs .right currentOutput)
  else if sameName outputStr "up" then some (getOutputNextWrap outputs .up currentOutput)
  else if sameName outputStr "down" then some (getOutputNextWrap outputs .down currentOutput)
  else getOutputByName outputs outputStr true

/-- The loop of `user_output_names_find_next`, with `target_output`. -/
def findNextLoop (currentOutput : Output) : List String → Option Output → Option Output
  | [], targetOutput => targetOutput
  | uo :: names, targetOutput =>
    let targetOutput := targetOutput.or (getOutputFromString outputs focusedOutput currentOutput uo)
    if sameName (outputPrimaryName currentOutput) uo then
      (names.findSome? (getOutputFromString outputs focusedOutput currentOutput)).or targetOutput
    else findNextLoop currentOutput names targetOutput

def userOutputNamesFindNext (names : List String) (currentOutput : Output) : Option Output :=
  findNextLoop outputs focusedOutput currentOutput names none

/-! ### What the list denotes -/

/-- The name is none of the words that stand for an output by its place. -/
def PlainName (name : String) : Prop :=
  ∀ word ∈ ["current", "left", "right", "up", "down"], sameName name word = false

instance (name : String) : Decidable (PlainName name) :=
  inferInstanceAs (Decidable (∀ word ∈ ["current", "left", "right", "up", "down"], sameName name word = false))

/-- The active outputs that the names denote, in the order of the list. -/
def denotedOutputs (names : List String) : List Output :=
  names.filterMap fun name => getOutputByName outputs name true

/-- How many active outputs the names up to the first name of the current output denote. -/
def denotedUpTo (names : List String) (currentOutput : Output) : ℕ :=
  match names.findIdx? (sameName (outputPrimaryName currentOutput)) with
  | none => 0
  | some i => (denotedOutputs outputs (names.take (i + 1))).length

/-- Moving again and again from the current output goes round the outputs that the list denotes. -/
def Cycles (names : List String) (currentOutput : Output) : Prop :=
  Rounds.GoesRound (userOutputNamesFindNext outputs focusedOutput names) (denotedOutputs outputs names)
    currentOutput

/-- As many outputs are denoted up to the first name of the current output as up to the current output
itself, up to a whole round. -/
def Recognised (names : List String) (currentOutput : Output) : Prop :=
  denotedUpTo outputs names currentOutput % (denotedOutputs outputs names).length =
    Rounds.start (denotedOutputs outputs names) currentOutput % (denotedOutputs outputs names).length

variable {outputs focusedOutput} {names : List String} {currentOutput : Output}

/-! ### The next output -/

theorem getOutputFromString_plain {name : String} (h : PlainName name) :
    getOutputFromString outputs focusedOutput currentOutput name = getOutputByName outputs name true := by
  rw [getOutputFromString, h "current" (by simp), h "left" (by simp), h "right" (by simp),
    h "up" (by simp), h "down" (by simp)]
  rfl

theorem findNextLoop_eq (targetOutput : Option Output) :
    findNextLoop outputs focusedOutput currentOutput names targetOutput =
      match names.findIdx? (sameName (outputPrimaryName currentOutput)) with
      | none => targetOutput.or
          (names.findSome? (getOutputFromString outputs focusedOutput currentOutput))
      | some i =>
        ((names.drop (i + 1)).findSome? (getOutputFromString outputs focusedOutput currentOutput)).or
          (targetOutput.or ((names.take (i + 1)).findSome?
            (getOutputFromString outputs focusedOutput currentOutput))) := by
  induction names generalizing targetOutput with
  | nil => simp [findNextLoop]
  | cons uo names ih =>
    rw [findNextLoop, List.findIdx?_cons]
    by_cases huo : sameName (outputPrimaryName currentOutput) uo = true
    · simp only [huo, if_true, List.drop_succ_cons, List.drop_zero, List.take_succ_cons, List.take_zero,
        List.findSome?_cons, List.findSome?_nil]
      cases getOutputFromString outputs focusedOutput currentOutput uo <;> rfl
    · simp only [huo, Bool.false_eq_true, if_false, ih]
      cases names.findIdx? (sameName (outputPrimaryName currentOutput)) with
      | none =>
        simp only [Option.map_none, List.findSome?_cons]
        cases getOutputFromString outputs focusedOutput currentOutput uo <;> simp
      | some i =>
        simp only [Option.map_some, List.drop_succ_cons, List.take_succ_cons, List.findSome?_cons]
        cases getOutputFromString outputs focusedOutput currentOutput uo <;> simp

/-- **The next output** follows those that are denoted up to the first name of the current one. -/
theorem userOutputNamesFindNext_eq (hplain : ∀ name ∈ names, PlainName name) :
    userOutputNamesFindNext outputs focusedOutput names currentOutput =
      (denotedOutputs outputs names)[denotedUpTo outputs names currentOutput %
        (denotedOutputs outputs names).length]? := by
  have hfind : ∀ l : List String, (∀ name ∈ l, name ∈ names) →
      l.findSome? (getOutputFromString outputs focusedOutput currentOutput) =
        l.findSome? fun name => getOutputByName outputs name true := by
    intro l hl
    rw [← List.head?_filterMap, ← List.head?_filterMap]
    apply congrArg
    apply List.filterMap_congr
    intro name hname
    exact getOutputFromString_plain (hplain name (hl name hname))
  rw [userOutputNamesFindNext, findNextLoop_eq, denotedUpTo]
  split
  · rw [hfind names fun _ h => h, Option.none_or, Nat.zero_mod, denotedOutputs, ← List.head?_filterMap,
      List.head?_eq_getElem?]
  · next i _ =>
    rw [hfind _ fun _ h => List.mem_of_mem_drop h, hfind _ fun _ h => List.mem_of_mem_take h,
      Option.none_or, Rounds.or_findSome?, List.take_append_drop]
    rfl

/-- **The list is gone round** exactly if the current output and each output of the list is recognised. -/
theorem cyclesOutputs_iff (outputs : List Output) (focusedOutput : Output) (names : List String)
    (currentOutput : Output) (hplain : ∀ name ∈ names, PlainName name)
    (hnodup : (denotedOutputs outputs names).Nodup) :
    Cycles outputs focusedOutput names currentOutput ↔
      Recognised outputs names currentOutput ∧
        ∀ output ∈ denotedOutputs outputs names, Recognised outputs names output := by
  have hnext : ∀ output, userOutputNamesFindNext outputs focusedOutput names output =
      (denotedOutputs outputs names)[denotedUpTo outputs names output %
        (denotedOutputs outputs names).length]? := fun output => userOutputNamesFindNext_eq hplain
  by_cases hnil : denotedOutputs outputs names = []
  · refine iff_of_true ?_ ⟨?_, ?_⟩
    · rw [Cycles, hnil]
      rw [hnil] at hnext
      exact Rounds.goesRound_nil hnext currentOutput
    · have hnone : ∀ i, (denotedOutputs outputs (names.take i)).length = 0 := by
        intro i
        rw [List.length_eq_zero_iff, ← List.sublist_nil, ← hnil]
        exact (List.take_sublist i names).filterMap _
      rw [Recognised, hnil, denotedUpTo]
      split
      · rfl
      · rw [hnone]
        rfl
    · intro output houtput
      rw [hnil] at houtput
      cases houtput
  · exact Rounds.goesRound_iff hnext hnodup hnil

def laptop : Output := { con := 1, names := ["eDP-1"], active := true, primary := true, rect := {} }

def monitor : Output := { con := 2, names := ["HDMI-1"], active := true, primary := false, rect := {} }

theorem cycles_laptop :
    Cycles [laptop, monitor] laptop ["hdmi-1", "VGA-1", "eDP-1"] laptop ↔
      Recognised [laptop, monitor] ["hdmi-1", "VGA-1", "eDP-1"] laptop ∧
        ∀ output ∈ denotedOutputs [laptop, monitor] ["hdmi-1", "VGA-1", "eDP-1"],
          Recognised [laptop, monitor] ["hdmi-1", "VGA-1", "eDP-1"] output :=
  cyclesOutputs_iff _ _ _ _ (by decide +kernel) (by decide +kernel)

/-- An output whose first name denotes no other output is recognised if its entry is that name, or if it
is the last one, which the first one follows anyway. -/
theorem recognised_iff (hnodup : (denotedOutputs outputs names).Nodup)
    (hname : ∀ name ∈ names, sameName (outputPrimaryName currentOutput) name = true →
      getOutputByName outputs name true = some currentOutput) :
    Recognised outputs names currentOutput ↔
      (∃ name ∈ names, sameName (outputPrimaryName currentOutput) name = true) ∨
        currentOutput ∉ denotedOutputs outputs names ∨
        (denotedOutputs outputs names).getLast? = some currentOutput := by
  rw [Recognised, denotedUpTo]
  cases hi : names.findIdx? (sameName (outputPrimaryName currentOutput)) with
  | none =>
    have hnone : ¬ ∃ name ∈ names, sameName (outputPrimaryName currentOutput) name = true := by
      rintro ⟨name, hmem, hsame⟩
      rw [List.findIdx?_eq_none_iff] at hi
      exact Bool.false_ne_true ((hi name hmem).symm.trans hsame)
    rw [or_iff_right hnone, Nat.zero_mod]
    by_cases hmem : currentOutput ∈ denotedOutputs outputs names
    · obtain ⟨i, hlt, rfl⟩ := List.getElem_of_mem hmem
      rw [Rounds.start_getElem hnodup hlt, or_iff_right (not_not_intro hmem), List.getLast?_eq_getElem?]
      constructor
      · intro hzero
        have hlast : i + 1 = (denotedOutputs outputs names).length := by
          by_contra hne
          rw [Nat.mod_eq_of_lt (by omega)] at hzero
          omega
        rw [show (denotedOutputs outputs names).length - 1 = i by omega, List.getElem?_eq_getElem hlt]
      · intro hlast
        rw [List.getElem?_eq_getElem (by omega), Option.some.injEq, hnodup.getElem_inj_iff] at hlast
        rw [show i + 1 = (denotedOutputs outputs names).length by omega, Nat.mod_self]
    · rw [Rounds.start, if_neg hmem, Nat.zero_mod]
      exact iff_of_true rfl (.inl hmem)
  | some i =>
    obtain ⟨hlt, hsame, -⟩ := List.findIdx?_eq_some_iff_getElem.mp hi
    have hdenotes := hname _ (List.getElem_mem hlt) hsame
    refine iff_of_true ?_ (.inl ⟨_, List.getElem_mem hlt, hsame⟩)
    -- the entry that is found denotes the current output
    have htake : denotedOutputs outputs (names.take (i + 1)) =
        denotedOutputs outputs (names.take i) ++ [currentOutput] := by
      rw [List.take_add_one, List.getElem?_eq_getElem hlt, denotedOutputs, List.filterMap_append]
      simp [hdenotes, denotedOutputs]
    have hall : denotedOutputs outputs names =
        denotedOutputs outputs (names.take i) ++ currentOutput :: denotedOutputs outputs (names.drop (i + 1)) := by
      conv_lhs => rw [← List.take_append_drop (i + 1) names, denotedOutputs, List.filterMap_append]
      change denotedOutputs outputs (names.take (i + 1)) ++ denotedOutputs outputs (names.drop (i + 1)) = _
      rw [htake, List.append_assoc, List.singleton_append]
    have hstart : Rounds.start (denotedOutputs outputs names) currentOutput =
        (denotedOutputs outputs (names.take i)).length + 1 := by
      have hi' : (denotedOutputs outputs (names.take i)).length < (denotedOutputs outputs names).length := by
        rw [hall, List.length_append, List.length_cons]
        omega
      have hget : (denotedOutputs outputs names)[(denotedOutputs outputs (names.take i)).length] =
          currentOutput := by
        simp [hall]
      rw [← Rounds.start_getElem hnodup hi', hget]
    rw [hstart]
    simp only [htake, List.length_append, List.length_singleton]

/-- From the primary output the list of `primary` and another output leads to the primary output. -/
theorem not_cycles_primary :
    (∀ name ∈ ["primary", "HDMI-1"], PlainName name) ∧
      denotedOutputs [laptop, monitor] ["primary", "HDMI-1"] = [laptop, monitor] ∧
      userOutputNamesFindNext [laptop, monitor] laptop ["primary", "HDMI-1"] laptop = some laptop ∧
      ¬ Cycles [laptop, monitor] laptop ["primary", "HDMI-1"] laptop := by
  refine ⟨by decide +kernel, by decide +kernel, by decide +kernel, ?_⟩
  intro h
  exact absurd (h 0) (by decide +kernel)

end UserNames

end I3
