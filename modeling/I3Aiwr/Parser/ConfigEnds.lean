import Mathlib.Data.List.Chain
import I3Aiwr.Parser.Slots
import I3Aiwr.Parser.Progress

/-!
# Loading a configuration ends

The list of states is a path in the table of the configuration: a state is put on it behind one that
leads to it, and one that is on it already cuts it. A state is entered again only from inside its
block, so that a number for each state, growing along the other transitions, bounds the list.

Each iteration takes something off the text, or recovers from an error in front of a newline, which
the next iteration takes. For an error the parser looks up the line and the lines around it; behind
each of the lines it counts there is a newline in the text.

## Main definitions

* `ConfigState.depth`, `ConfigState.blocks`: the place of a state on the list, and the states in front
  of it that it may lead back to
* `ConfigParser.Path`, `ConfigParser.Listed`: the list of states
* `ConfigParser.Reading`: what was read of the text
* `startOfLine`, `contextLines`: the lines looked up for an error
* `ConfigParser.Orderly`

## Main results

* `ConfigParser.step_listed`, `ConfigParser.step_measure`
* `ConfigParser.config_ends`
-/

namespace I3.Parser

/-! ### The table -/

/-- The greatest place a state has on the list. -/
def ConfigState.depth : ConfigState → ℕ
  | .initial => 1
  | .switcherMaxItems | .switcherPreview | .overviewThumbnailScale | .overviewThumbnailBlur
  | .overviewSpacing | .overviewAnimationDuration | .overviewBackgroundOpacity
  | .overviewBackgroundBlur | .overviewWallpaperPath | .overviewLivePreviews | .overviewParticles
  | .overviewFps | .overviewBorderColor | .overviewBorderColorEnd | .overviewBorderInactive
  | .overviewBorderWidth | .overviewBorderSpeed | .gradientBorderInactiveStart
  | .gradientBorderInactiveEnd | .gradientBorderAngle | .gradientBorderSpeed | .gradientBorderFps
  | .gradientBorderColorStart | .gradientBorderColorEnd | .gradientBorderDirection
  | .workspaceTransitionDuration | .workspaceTransitionDirection | .workspaceTransitionType
  | .workspaceTransitionCurve | .workspaceTransitionFps | .windowAnimationDuration
  | .windowAnimationScale | .windowAnimationCurve | .windowAnimationFps | .windowAnimationOpacity
  | .windowAnimationStartOpacity | .windowAnimationClose | .scrollingWidth | .scrollingDuration
  | .scrollingCurve | .scrollingCenterFocus | .floatingMinimumSizeX | .floatingMaximumSizeX
  | .tilingDragSwapModifier | .defaultBorderPixels | .criteria | .forceDisplayUrgencyHintMs
  | .workspaceCommand | .tilingDragMode | .colorBackground | .bindcommand | .modebrace | .bar => 3
  | .gaps | .windowAnimationCloseDuration | .windowAnimationCloseScale
  | .windowAnimationCloseCurve | .windowAnimationCloseOpacity | .floatingMinimumSizeHeight
  | .floatingMaximumSizeHeight | .defaultBorderPixelsPx | .forWindowCommand | .assignWorkspace
  | .noFocusEnd | .criterion | .criterionFrom | .workspaceOutputWord | .colorText | .mode
  | .barIgnoreLine | .barBarCommand | .barStatusCommand | .barWorkspaceCommand | .barSocketPath
  | .barMode | .barHiddenState | .barId | .barModifier | .barWheelUpCmd | .barWheelDownCmd
  | .barBindsym | .barPosition | .barOutput | .barTrayOutput | .barTrayPadding | .barFont
  | .barSeparatorSymbol | .barBindingModeIndicator | .barWorkspaceButtons | .barWorkspaceMinWidth
  | .barStripWorkspaceNumbers | .barStripWorkspaceName | .barVerbose | .barHeight | .barPadding
  | .barColorsBrace => 4
  | .gapsWithScope | .assignOutput | .assignWorkspaceNumber | .criterionFromStrStart
  | .criterionStr | .colorIndicator | .modeIgnoreLine | .modeBinding | .barBindsymCommand
  | .barTrayPaddingPx | .barWorkspaceMinWidthPx | .barPaddingTop | .barColors => 5
  | .gapsEnd | .criterionFromStr | .colorChildBorder | .modeBindcommand | .barPaddingRight
  | .barColorsIgnoreLine | .barColorsSingle | .barColorsBorder => 6
  | .criterionFromStrEnd | .barPaddingBottom | .barColorsBackground => 7
  | .barPaddingLeft | .barColorsText => 8
  | _ => 2

/-- The states that are on the list in front of a state, and that it may lead back to. -/
def ConfigState.blocks : ConfigState → List ConfigState
  | .initial => []
  | .modeIgnoreLine | .modeBinding | .modeBindcommand => [.initial, .mode]
  | .barIgnoreLine | .barBarCommand | .barStatusCommand | .barWorkspaceCommand | .barSocketPath
  | .barMode | .barHiddenState | .barId | .barModifier | .barWheelUpCmd | .barWheelDownCmd
  | .barBindsym | .barBindsymCommand | .barPosition | .barOutput | .barTrayOutput
  | .barTrayPadding | .barTrayPaddingPx | .barFont | .barSeparatorSymbol
  | .barBindingModeIndicator | .barWorkspaceButtons | .barWorkspaceMinWidth
  | .barWorkspaceMinWidthPx | .barStripWorkspaceNumbers | .barStripWorkspaceName | .barVerbose
  | .barHeight | .barPadding | .barPaddingTop | .barPaddingRight | .barPaddingBottom
  | .barPaddingLeft | .barColorsBrace | .barColors => [.initial, .bar]
  | .barColorsIgnoreLine | .barColorsSingle | .barColorsBorder | .barColorsBackground
  | .barColorsText => [.initial, .bar, .barColors]
  | .criterion | .criterionFrom | .criterionFromStrStart | .criterionFromStr
  | .criterionFromStrEnd | .criterionStr => [.initial, .criteria]
  | _ => [.initial]

/-- The states `cfg_criteria_pop_state` returns to. -/
def criteriaTargets : List ConfigState := [.forWindowCommand, .assignWorkspace, .noFocusEnd]

/-- The states a token leads to. -/
def targets : Action ConfigState ConfigIdentifier → List ConfigState
  | .goto s => [s]
  | .call function _ next => if function = "cfg_criteria_pop_state" then criteriaTargets else [next]

/-- The criteria of a directive are being read. -/
def ConfigState.inCriteria (s : ConfigState) : Bool := s = .criteria || s.blocks.contains .criteria

/-- One state leads to another. -/
def Leads (s s' : ConfigState) : Prop := ∃ t ∈ s.tokens, s' ∈ targets t.action

theorem ConfigState.depth_le (s : ConfigState) : s.depth ≤ 10 := by
  cases s <;> decide

/-- A token leads to the same state, back to a state on the list, or to one with a greater place. -/
theorem ConfigState.leads (s : ConfigState) : ∀ t ∈ s.tokens, ∀ s' ∈ targets t.action,
    s' = s ∨ s' ∈ s.blocks ∨ s.depth < s'.depth ∧ s'.blocks ⊆ s :: s.blocks := by
  cases s <;> decide

/-- An action that sets what `cfg_criteria_pop_state` returns to, or keeps it in a state that reads
criteria. -/
def keepsCriteria (s : ConfigState) : Action ConfigState ConfigIdentifier → Bool
  | .goto _ => s.inCriteria
  | .call function args _ =>
    (function = "cfg_criteria_init" && criteriaTargets.any fun s' => args = [.state s']) ||
      (s.inCriteria && function ≠ "cfg_criteria_init" && function ≠ "cfg_include")

theorem ConfigState.toCriteria (s : ConfigState) : ∀ t ∈ s.tokens, ∀ s' ∈ targets t.action,
    s'.inCriteria → t.name ≠ .end_ ∧ keepsCriteria s t.action := by
  cases s <;> decide

def isPop : Action ConfigState ConfigIdentifier → Bool
  | .goto _ => false
  | .call function _ _ => function = "cfg_criteria_pop_state"

theorem ConfigState.pop (s : ConfigState) : ∀ t ∈ s.tokens, isPop t.action → s.inCriteria := by
  cases s <;> decide

theorem ConfigState.name_ne (s : ConfigState) : ∀ t ∈ s.tokens, t.name ≠ .literal "" := by
  cases s <;> decide

/-- A state with an `error` token has an `end` token in front, and an error leads back to it. -/
theorem ConfigState.errorToken (s : ConfigState) : ∀ t ∈ s.tokens, t.name = .error →
    t.action = .goto s ∧ s.tokens.head?.map (·.name) = some .end_ ∧ s.inCriteria = false := by
  cases s <;> decide

namespace ConfigParser

/-! ### The list of states -/

/-- A path from `INITIAL`, in which each state is behind those it may lead back to. -/
structure Path (l : List ConfigState) : Prop where
  nodup : l.Nodup
  first : l.head? = some .initial
  chain : l.IsChain Leads
  depth : ∀ i (s : ConfigState), l[i]? = some s → i < s.depth
  blocks : ∀ i (s : ConfigState), l[i]? = some s → s.blocks ⊆ l.take i

namespace Path

variable {l : List ConfigState} {s s' : ConfigState}

theorem length_le (h : Path l) : l.length ≤ 10 := by
  by_contra hlong
  have hlast : 10 < l.length := not_le.mp hlong
  have hdepth := h.depth 10 l[10] (List.getElem?_eq_getElem hlast)
  exact absurd (hdepth.trans_le (ConfigState.depth_le _)) (lt_irrefl _)

theorem take (h : Path l) {n : ℕ} (hn : 0 < n) : Path (l.take n) where
  nodup := h.nodup.sublist (List.take_sublist n l)
  first := by
    rw [List.head?_take, if_neg hn.ne']
    exact h.first
  chain := h.chain.prefix (List.take_prefix n l)
  depth i s hs := by
    rw [List.getElem?_take] at hs
    split at hs
    · exact h.depth i s hs
    · cases hs
  blocks i s hs := by
    rw [List.getElem?_take] at hs
    split at hs
    · next hi =>
      rw [List.take_take, Nat.min_eq_left hi.le]
      exact h.blocks i s hs
    · cases hs

theorem mem_of_blocks (h : Path l) (hlast : l.getLast? = some s) (hs : s' ∈ s.blocks) : s' ∈ l := by
  rw [List.getLast?_eq_getElem?] at hlast
  exact List.mem_of_mem_take (h.blocks _ s hlast hs)

/-- A state that is on the list cuts it. -/
theorem enter_mem (h : Path l) (hmem : s ∈ l) :
    Path (enter l s) ∧ (enter l s).getLast? = some s := by
  rw [enter, if_pos hmem]
  refine ⟨h.take (Nat.succ_pos _), ?_⟩
  have hlt := List.idxOf_lt_length_iff.mpr hmem
  rw [List.getLast?_eq_getElem?, List.length_take, Nat.min_eq_left hlt, Nat.succ_sub_one,
    List.getElem?_take, if_pos (Nat.lt_succ_self _), List.getElem?_eq_getElem hlt,
    List.getElem_idxOf]

theorem eq_of_getElem?_concat {i : ℕ} {r : ConfigState} (hi : l.length ≤ i)
    (hr : (l ++ [s'])[i]? = some r) : i = l.length ∧ r = s' := by
  rw [List.getElem?_append_right hi, List.getElem?_singleton] at hr
  split at hr
  · exact ⟨by omega, (Option.some.inj hr).symm⟩
  · cases hr

/-- **Entering a state** that the last one leads to. -/
theorem enter (h : Path l) (hlast : l.getLast? = some s) (hleads : Leads s s') :
    Path (enter l s') ∧ (ConfigParser.enter l s').getLast? = some s' := by
  by_cases hmem : s' ∈ l
  · exact h.enter_mem hmem
  · obtain ⟨t, ht, hs'⟩ := hleads
    obtain ⟨hdepth, hblocks⟩ : s.depth < s'.depth ∧ s'.blocks ⊆ s :: s.blocks := by
      rcases s.leads t ht s' hs' with rfl | hback | hforward
      · exact (hmem (List.mem_of_getLast? hlast)).elim
      · exact (hmem (h.mem_of_blocks hlast hback)).elim
      · exact hforward
    rw [ConfigParser.enter, if_neg hmem]
    refine ⟨⟨?_, ?_, ?_, fun i r hr => ?_, fun i r hr => ?_⟩, by simp⟩
    · rw [List.nodup_append]
      refine ⟨h.nodup, List.pairwise_singleton .., fun a ha b hb => ?_⟩
      rw [List.mem_singleton.mp hb]
      exact fun heq => hmem (heq ▸ ha)
    · rw [List.head?_append, h.first]
      rfl
    · refine h.chain.append (List.isChain_singleton _) fun a ha b hb => ?_
      rw [hlast] at ha
      obtain rfl : s = a := Option.some.inj ha
      obtain rfl : s' = b := Option.some.inj hb
      exact ⟨t, ht, hs'⟩
    · rcases Nat.lt_or_ge i l.length with hi | hi
      · rw [List.getElem?_append_left hi] at hr
        exact h.depth i r hr
      · obtain ⟨rfl, rfl⟩ := eq_of_getElem?_concat hi hr
        rw [List.getLast?_eq_getElem?] at hlast
        have := h.depth _ s hlast
        omega
    · rcases Nat.lt_or_ge i l.length with hi | hi
      · rw [List.getElem?_append_left hi] at hr
        rw [List.take_append_of_le_length hi.le]
        exact h.blocks i r hr
      · obtain ⟨rfl, rfl⟩ := eq_of_getElem?_concat hi hr
        rw [List.take_left]
        intro b hb
        rcases List.mem_cons.mp (hblocks hb) with rfl | hb
        · exact List.mem_of_getLast? hlast
        · exact h.mem_of_blocks hlast hb

end Path

/-! ### An iteration -/

variable {included : ConfigParser → ConfigState} {p p' : ConfigParser} {input walk : Text}

/-- The state an action moves to. -/
def target (criteriaNext : ConfigState) : Action ConfigState ConfigIdentifier → ConfigState
  | .goto s => s
  | .call function _ next => stateAfter function next criteriaNext

theorem nextState_state (p : ConfigParser) (a : Action ConfigState ConfigIdentifier) :
    (p.nextState included a).context.state = target p.criteriaNext a := by
  cases a with
  | goto s =>
    change (p.context.goto .initial s).state = s
    rw [Context.goto]
    split <;> rfl
  | call function args next => rfl

theorem nextState_statelist (p : ConfigParser) (a : Action ConfigState ConfigIdentifier) :
    (p.nextState included a).statelist = enter p.statelist (target p.criteriaNext a) := by
  cases a <;> rfl

@[simp] theorem nextState_linecnt (p : ConfigParser) (a : Action ConfigState ConfigIdentifier) :
    (p.nextState included a).linecnt = p.linecnt := by
  cases a <;> rfl

@[simp] theorem afterToken_state (name : TokenName) (p : ConfigParser) :
    (afterToken name p).context.state = p.context.state := by
  cases name <;> rfl

@[simp] theorem afterToken_statelist (name : TokenName) (p : ConfigParser) :
    (afterToken name p).statelist = p.statelist := by
  cases name <;> rfl

@[simp] theorem afterToken_linecnt (name : TokenName) (p : ConfigParser) :
    (afterToken name p).linecnt = p.linecnt + name.lines := by
  cases name <;> rfl

/-- The list of states leads to the current one, and where criteria are read it is known where
`cfg_criteria_pop_state` returns to. -/
structure Listed (p : ConfigParser) : Prop where
  path : Path p.statelist
  last : p.statelist.getLast? = some p.context.state
  criteria : p.context.state.inCriteria → p.criteriaNext ∈ criteriaTargets

theorem listed_start (input : Text) : Listed (start input) where
  path := by
    refine ⟨List.nodup_singleton _, rfl, List.isChain_singleton _, fun i s hs => ?_, fun i s hs => ?_⟩
    · obtain ⟨rfl, rfl⟩ := Path.eq_of_getElem?_concat (l := []) (Nat.zero_le i) hs
      decide
    · obtain ⟨rfl, rfl⟩ := Path.eq_of_getElem?_concat (l := []) (Nat.zero_le i) hs
      exact List.nil_subset _
  last := rfl
  criteria h := by cases h

/-- An action moves to a state it leads to. -/
theorem Listed.target_mem (h : Listed p) {t : Token ConfigState ConfigIdentifier}
    (ht : t ∈ p.context.state.tokens) : target p.criteriaNext t.action ∈ targets t.action := by
  have hpop := p.context.state.pop t ht
  cases haction : t.action with
  | goto s => exact List.mem_singleton_self s
  | call function args next =>
    rw [haction] at hpop
    rw [target, targets, stateAfter]
    split
    · next hname => exact h.criteria (hpop (by simpa [isPop] using hname))
    · exact List.mem_singleton_self next

theorem criteria_of_keeps {s : ConfigState} {a : Action ConfigState ConfigIdentifier}
    (hs : s.inCriteria → p.criteriaNext ∈ criteriaTargets) (h : keepsCriteria s a) :
    (p.nextState included a).criteriaNext ∈ criteriaTargets := by
  cases a with
  | goto s' => exact hs h
  | call function args next =>
    change criteriaNextAfter included p function args ∈ criteriaTargets
    rw [keepsCriteria, Bool.or_eq_true, Bool.and_eq_true, List.any_eq_true] at h
    rcases h with ⟨hinit, s', hs', hargs⟩ | hkeep
    · rw [of_decide_eq_true hargs, of_decide_eq_true hinit]
      exact hs'
    · simp only [Bool.and_eq_true, decide_eq_true_eq] at hkeep
      have hnext : criteriaNextAfter included p function args = p.criteriaNext := by
        rw [criteriaNextAfter.eq_def]
        split
        · rw [if_neg hkeep.1.2]
        · rw [if_neg hkeep.2]
      rw [hnext]
      exact hs hkeep.1.1

/-- A token moves along the table. -/
theorem Listed.next (h : Listed p) {t : Token ConfigState ConfigIdentifier}
    (ht : t ∈ p.context.state.tokens) (c : Context ConfigState ConfigIdentifier)
    (walk : Option Text) :
    Listed { afterToken t.name (nextState included { p with context := c } t.action) with
      walk := walk } := by
  have hmem := h.target_mem ht
  obtain ⟨hpath, hlast⟩ := h.path.enter h.last ⟨t, ht, hmem⟩
  refine ⟨?_, ?_, fun hcriteria => ?_⟩
  · rw [afterToken_statelist, nextState_statelist]
    exact hpath
  · rw [afterToken_statelist, nextState_statelist, afterToken_state, nextState_state]
    exact hlast
  · rw [afterToken_state, nextState_state] at hcriteria
    obtain ⟨hname, hkeeps⟩ := p.context.state.toCriteria t ht _ hmem hcriteria
    have hnext : (nextState included { p with context := c } t.action).criteriaNext ∈
        criteriaTargets := criteria_of_keeps h.criteria hkeeps
    cases hn : t.name with
    | end_ => exact (hname hn).elim
    | _ => exact hnext

theorem mem_of_errorToken {s : ConfigState} {t : Token ConfigState ConfigIdentifier}
    (h : ConfigParser.errorToken s = some t) : t ∈ s.tokens ∧ t.name = .error :=
  ⟨List.mem_of_find?_eq_some h, by simpa using List.find?_some h⟩

variable (included) in
/-- **An error is recovered from**: `INITIAL` is on the list and has an `error` token. -/
theorem recover_listed (h : Listed p) (walk : Text) : ∃ p', p.recover included walk = .ok p' ∧
    Listed p' ∧ p'.linecnt = p.linecnt ∧
    p'.context.state.tokens.head?.map (·.name) = some .end_ ∧
    p'.walk = if (walk.dropWhile (· ≠ '\n')).isEmpty then none
      else some (walk.dropWhile (· ≠ '\n')) := by
  have hinitial : ConfigState.initial ∈ p.statelist := List.mem_of_head? h.path.first
  cases hfound : p.statelist.reverse.findSome? ConfigParser.errorToken with
  | none =>
    rw [List.findSome?_eq_none_iff] at hfound
    exact absurd (hfound .initial (List.mem_reverse.mpr hinitial)) (by decide)
  | some t =>
    obtain ⟨s, hs, ht⟩ := List.exists_of_findSome?_eq_some hfound
    obtain ⟨hmem, hname⟩ := mem_of_errorToken ht
    obtain ⟨haction, hend, hcriteria⟩ := s.errorToken t hmem hname
    obtain ⟨hpath, hlast⟩ := h.path.enter_mem (List.mem_reverse.mp hs)
    unfold recover
    simp only [hfound, haction]
    refine ⟨_, rfl, ⟨hpath, ?_, fun hread => ?_⟩, rfl, ?_, rfl⟩
    · rw [nextState_state]
      exact hlast
    · rw [nextState_state, target, hcriteria] at hread
      cases hread
    · rw [nextState_state]
      exact hend
/-! ### The text that was read -/

/-- The parser is at a position of the text; behind each line it counts there is a newline. -/
def Reading (input : Text) (p : ConfigParser) : Prop :=
  ∀ walk ∈ p.walk, ∃ pre, input = pre ++ walk ∧ p.linecnt ≤ pre.countP isNewline + 1

/-- What is left of the text, with the terminating 0-byte. -/
def left : Option Text → ℕ
  | none => 0
  | some walk => walk.length + 1

/-- The first token of the state is `end`. -/
def atEnd (p : ConfigParser) : Prop := p.context.state.tokens.head?.map (·.name) = some .end_

instance (p : ConfigParser) : Decidable p.atEnd := inferInstanceAs (Decidable (_ = _))

/-- In front of a newline, a state whose first token is `end` does not fail. -/
def measure (p : ConfigParser) : ℕ := 2 * left p.walk + if p.atEnd then 0 else 1

theorem matches_newline (h : p.atEnd) {walk walk' : Text} :
    matchToken scanConfig p.context.state.tokens ('\n' :: walk) ≠ .inl walk' := by
  rw [atEnd] at h
  cases htokens : p.context.state.tokens with
  | nil =>
    rw [htokens] at h
    cases h
  | cons t ts =>
    rw [htokens] at h
    have hname : t.name = .end_ := Option.some.inj h
    rw [matchToken, hname]
    exact fun h => by cases h

theorem step_some (hwalk : p.walk = some walk) : p.step included =
    match matchToken scanConfig p.context.state.tokens (walk.dropWhile isBlank) with
    | .inl walk => p.recover included walk
    | .inr m => match p.context.store m.token.identifier m.value with
      | none => .error .stackFull
      | some c =>
        .ok { afterToken m.token.name (nextState included { p with context := c } m.token.action) with
          walk := m.rest } := by
  rw [step]
  split
  · next hnone =>
    rw [hnone] at hwalk
    cases hwalk
  · next walk₁ hsome =>
    rw [hsome] at hwalk
    obtain rfl := Option.some.inj hwalk
    rfl

variable (included) in
/-- What an iteration does to a text that is not at its end. -/
theorem step_spec (h : Listed p) (hsound : p.context.Sound ConfigState.slots)
    (hread : Reading input p) (hwalk : p.walk = some walk) :
    ∃ p', p.step included = .ok p' ∧ Listed p' ∧ Reading input p' ∧ measure p' < measure p := by
  obtain ⟨pre, hpre, hlines⟩ := hread walk hwalk
  have hscan : ∀ t ∈ p.context.state.tokens, ∀ walk,
      Advances walk t.name.lines (scanConfig t.name walk) :=
    fun t ht walk => advances_scanConfig (p.context.state.name_ne t ht) walk
  obtain ⟨blanks, hblanks⟩ : walk.dropWhile isBlank <:+ walk := List.dropWhile_suffix _
  rw [step_some hwalk]
  cases hmatch : matchToken scanConfig p.context.state.tokens (walk.dropWhile isBlank) with
  | inl walk' =>
    obtain ⟨p', hp', hlisted, hlinecnt, hend, hwalk'⟩ := recover_listed included h walk'
    have hsuffix : walk' <:+ walk := (suffix_of_matchToken hscan hmatch).trans ⟨blanks, hblanks⟩
    have hrest : walk'.dropWhile (· ≠ '\n') <:+ walk' := List.dropWhile_suffix _
    refine ⟨p', hp', hlisted, fun r hr => ?_, ?_⟩
    · rw [hwalk'] at hr
      split at hr
      · cases hr
      · obtain rfl := Option.some.inj hr
        obtain ⟨front, hfront⟩ := hrest.trans hsuffix
        refine ⟨pre ++ front, by rw [hpre, List.append_assoc, hfront], ?_⟩
        rw [hlinecnt, List.countP_append]
        omega
    · have hp'end : p'.atEnd := hend
      rw [measure, measure, if_pos hp'end, hwalk', hwalk]
      split
      · simp only [left]
        omega
      · next hne =>
        have hle := (hrest.trans hsuffix).length_le
        rcases Nat.lt_or_eq_of_le hle with hlt | heq
        · simp only [left]
          omega
        · -- nothing was taken: the parser is in front of a newline
          have hsame := (hrest.trans hsuffix).eq_of_length heq
          have hwalk₁ : walk' = walk :=
            hsuffix.eq_of_length (le_antisymm hsuffix.length_le (heq ▸ hrest.length_le))
          have hblank : walk.dropWhile isBlank = walk := by
            have := suffix_of_matchToken hscan hmatch
            rw [hwalk₁] at this
            exact (List.dropWhile_suffix _).eq_of_length
              (le_antisymm (List.dropWhile_suffix _).length_le this.length_le)
          cases hw : walk with
          | nil =>
            rw [hsame, hw] at hne
            exact (hne rfl).elim
          | cons c cs =>
            have hc : c = '\n' := by
              have := List.head?_dropWhile_not (· ≠ '\n') walk'
              rw [hsame, hw] at this
              simpa using this
            have hnot : ¬ p.atEnd := by
              intro hatEnd
              rw [hblank, hw, hc] at hmatch
              exact matches_newline hatEnd hmatch
            rw [if_neg hnot, hsame, hw]
            exact Nat.lt_succ_self _
  | inr m =>
    obtain ⟨hmem, hrest⟩ := advances_of_matchToken hscan hmatch
    dsimp only
    cases hstore : p.context.store m.token.identifier m.value with
    | none =>
      have hno : p.step included ≠ .error .stackFull := (step_sound hsound).1
      rw [step_some hwalk] at hno
      simp only [hmatch, hstore] at hno
      exact (hno rfl).elim
    | some c =>
      refine ⟨_, rfl, h.next hmem c m.rest, fun r hr => ?_, ?_⟩
      · obtain ⟨taken, -, htaken, hcount⟩ := hrest r hr
        refine ⟨pre ++ (blanks ++ taken), ?_, ?_⟩
        · rw [hpre, ← hblanks, htaken]
          simp
        · change (afterToken _ _).linecnt ≤ _
          rw [afterToken_linecnt, nextState_linecnt, List.countP_append, List.countP_append]
          change p.linecnt + m.token.name.lines ≤ _
          omega
      · have hleft : left m.rest ≤ walk.length := by
          cases hr : m.rest with
          | none => exact Nat.zero_le _
          | some r =>
            obtain ⟨taken, htaken, heq, -⟩ := hrest r hr
            have hlength := congrArg List.length hblanks
            have hpos := List.length_pos_iff.mpr htaken
            rw [List.length_append, heq, List.length_append] at hlength
            change r.length + 1 ≤ walk.length
            omega
        rw [measure, measure, hwalk]
        change 2 * left m.rest + _ < 2 * (walk.length + 1) + _
        split <;> omega

end ConfigParser

/-! ### The lines around an error -/

/-- The start of the line of the position in front of `n`. -/
def lineStart (text : Text) : ℕ → ℕ
  | 0 => 0
  | n + 1 => if text[n]?.any isNewline then n + 1 else lineStart text n

/-- `start_of_line`; positions are counted from the beginning. -/
def startOfLine (text : Text) (walk : ℤ) : ℤ :=
  if walk < 0 then walk + 1 else lineStart text (walk.toNat + 1)

/-- The line behind the newline at or behind a position, if there is a character in it. -/
def nextLine (text : Text) (line : ℤ) : Option ℤ :=
  match (text.drop line.toNat).dropWhile (· ≠ '\n') with
  | '\n' :: c :: cs => some (text.length - (c :: cs).length)
  | _ => none

/-- The lines looked up for an error: that of `walk`, up to two in front of it, and up to two behind
it. -/
def contextLines (text : Text) (walk linecnt : ℕ) : List ℤ :=
  let errorLine := startOfLine text walk
  let contextP1 := startOfLine text (errorLine - 2)
  let contextP2 := startOfLine text (contextP1 - 2)
  errorLine :: ((if linecnt > 1 then contextP1 :: (if linecnt > 2 then [contextP2] else []) else []) ++
    match nextLine text errorLine with
    | none => []
    | some line => line :: (nextLine text line).toList)

section Lines

variable {text : Text}

theorem lineStart_le (text : Text) (n : ℕ) : lineStart text n ≤ n := by
  induction n with
  | zero => exact le_rfl
  | succ n ih =>
    rw [lineStart]
    split
    · exact le_rfl
    · exact ih.trans (Nat.le_succ n)

variable (text) in
theorem lineStart_le_length {n : ℕ} (hn : n ≤ text.length + 1) : lineStart text n ≤ text.length := by
  cases n with
  | zero => exact Nat.zero_le _
  | succ n =>
    rw [lineStart]
    split
    · next h =>
      obtain ⟨c, hc, -⟩ := (Option.any_eq_true _ _).mp h
      exact (List.getElem?_eq_some_iff.mp hc).1
    · exact (lineStart_le text n).trans (Nat.le_of_succ_le_succ hn)

/-- The newlines in front of a position. -/
def newlines (text : Text) (n : ℕ) : ℕ := (text.take n).countP isNewline

theorem newlines_succ (text : Text) (n : ℕ) :
    newlines text (n + 1) = newlines text n + if text[n]?.any isNewline then 1 else 0 := by
  rw [newlines, newlines, List.take_add_one, List.countP_append]
  cases text[n]? with
  | none => rfl
  | some c => simp [List.countP_singleton]

theorem newlines_lineStart (text : Text) (n : ℕ) : newlines text (lineStart text n) = newlines text n := by
  induction n with
  | zero => rfl
  | succ n ih =>
    rw [lineStart]
    split
    · rfl
    · next h => rw [ih, newlines_succ, if_neg h, Nat.add_zero]

variable (text) in
/-- With a newline in front, the line starts behind one. -/
theorem startOfLine_spec {n : ℕ} (hn : n ≤ text.length + 1) (hlines : 0 < newlines text n) :
    ∃ m : ℕ, startOfLine text ((n : ℤ) - 1) = (m + 1 : ℕ) ∧ m + 1 ≤ text.length ∧
      newlines text n ≤ newlines text m + 1 := by
  have hcount := newlines_lineStart text n
  have hle := lineStart_le_length text hn
  cases n with
  | zero => cases hlines
  | succ n =>
    have hstart : startOfLine text (((n + 1 : ℕ) : ℤ) - 1) = lineStart text (n + 1) := by
      rw [startOfLine, if_neg (by omega)]
      congr
      omega
    cases hm : lineStart text (n + 1) with
    | zero =>
      rw [hm] at hcount
      rw [← hcount] at hlines
      cases hlines
    | succ m =>
      rw [hm] at hcount hle hstart
      refine ⟨m, hstart, hle, ?_⟩
      rw [← hcount, newlines_succ]
      split <;> omega

theorem startOfLine_mem {walk : ℤ} (hlow : -1 ≤ walk) (hhigh : walk ≤ text.length) :
    0 ≤ startOfLine text walk ∧ startOfLine text walk ≤ text.length := by
  rw [startOfLine]
  split
  · omega
  · have := lineStart_le_length text (n := walk.toNat + 1) (by omega)
    omega

theorem nextLine_mem {line line' : ℤ} (h : nextLine text line = some line') :
    0 ≤ line' ∧ line' ≤ text.length := by
  rw [nextLine] at h
  split at h
  · next c cs heq =>
    obtain rfl := Option.some.inj h
    have hle : ('\n' :: c :: cs).length ≤ text.length := by
      rw [← heq]
      exact ((List.dropWhile_suffix _).trans (List.drop_suffix ..)).length_le
    rw [List.length_cons] at hle
    omega
  · cases h

/-- **The lines looked up** are in the text, where a newline is in front for each line counted. -/
theorem contextLines_mem {walk linecnt : ℕ} (hwalk : walk ≤ text.length)
    (hlines : linecnt ≤ newlines text walk + 1) :
    ∀ line ∈ contextLines text walk linecnt, 0 ≤ line ∧ line ≤ text.length := by
  have hcount : newlines text walk ≤ newlines text (walk + 1) := by
    rw [newlines_succ]
    exact Nat.le_add_right ..
  intro line hline
  rw [contextLines, List.mem_cons, List.mem_append] at hline
  rcases hline with rfl | hline | hline
  · exact startOfLine_mem (by omega) (by omega)
  · split at hline
    · next hone =>
      obtain ⟨m, hm, hmle, hmlines⟩ := startOfLine_spec text (n := walk + 1) (by omega)
        (by omega)
      have herror : startOfLine text walk = (m + 1 : ℕ) := by
        rw [← hm]
        congr
        omega
      have hbefore : startOfLine text walk - 2 = (m : ℤ) - 1 := by
        rw [herror]
        omega
      rw [hbefore, List.mem_cons] at hline
      rcases hline with rfl | hline
      · exact startOfLine_mem (by omega) (by omega)
      · split at hline
        · next htwo =>
          obtain ⟨k, hk, hkle, -⟩ := startOfLine_spec text (n := m) (by omega) (by omega)
          rw [hk, List.mem_singleton] at hline
          subst hline
          exact startOfLine_mem (by omega) (by omega)
        · cases hline
    · cases hline
  · split at hline
    · cases hline
    · next line' hline' =>
      rcases List.mem_cons.mp hline with rfl | hline
      · exact nextLine_mem hline'
      · exact nextLine_mem (Option.mem_toList.mp hline)

end Lines

namespace ConfigParser

/-! ### Runs -/

variable {included : ConfigParser → ConfigState} {p p' : ConfigParser} {input : Text}

/-- What the parser keeps to between two iterations: it does not exit, the list of states is a path
to the current state, and the positions it reads at are in the text. -/
structure Orderly (included : ConfigParser → ConfigState) (input : Text) (p : ConfigParser) : Prop where
  noAbort : ∀ a, p.step included ≠ .error a
  length : p.statelist.length ≤ 10
  nodup : p.statelist.Nodup
  first : p.statelist.head? = some .initial
  last : p.statelist.getLast? = some p.context.state
  chain : p.statelist.IsChain Leads
  position : ∀ walk ∈ p.walk, walk <:+ input
  lines : ∀ walk ∈ p.walk, ∀ walk',
    matchToken scanConfig p.context.state.tokens (walk.dropWhile isBlank) = .inl walk' →
      walk' <:+ input ∧ ∀ line ∈ contextLines input (input.length - walk'.length) p.linecnt,
        0 ≤ line ∧ line ≤ input.length

/-- What holds between two iterations. -/
structure Inv (input : Text) (p : ConfigParser) : Prop where
  listed : Listed p
  sound : p.context.Sound ConfigState.slots
  reading : Reading input p

theorem inv_start (input : Text) : Inv input (start input) where
  listed := listed_start input
  sound := Context.Sound.callDirectly ⟨Stack.stores_nil, by simp [Stack.Within, Stack.empty],
    by simp⟩ _ _
  reading walk hwalk := by
    obtain rfl := Option.some.inj hwalk
    exact ⟨[], rfl, le_rfl⟩

variable (included) in
/-- **An iteration** goes on, and at the end of the text nothing changes. -/
theorem step_inv (h : Inv input p) : ∃ p', p.step included = .ok p' ∧ Inv input p' ∧
    (p.walk ≠ none → measure p' < measure p) := by
  cases hwalk : p.walk with
  | none =>
    refine ⟨p, ?_, h, fun hne => (hne rfl).elim⟩
    rw [step, hwalk]
  | some walk =>
    obtain ⟨p', hp', hlisted, hreading, hlt⟩ :=
      step_spec included h.listed h.sound h.reading hwalk
    exact ⟨p', hp', ⟨hlisted, (step_sound h.sound).2 p' hp', hreading⟩, fun _ => hlt⟩

theorem Inv.orderly (h : Inv input p) : Orderly included input p := by
  refine ⟨fun a => ?_, h.listed.path.length_le, h.listed.path.nodup, h.listed.path.first,
    h.listed.last, h.listed.path.chain, fun walk hwalk => ?_, fun walk hwalk walk' hmatch => ?_⟩
  · obtain ⟨p', hp', -⟩ := step_inv included h
    simp [hp']
  · obtain ⟨pre, hpre, -⟩ := h.reading walk hwalk
    exact ⟨pre, hpre.symm⟩
  · obtain ⟨pre, hpre, hlines⟩ := h.reading walk hwalk
    have hsuffix : walk' <:+ walk := (suffix_of_matchToken (fun t ht walk =>
      advances_scanConfig (p.context.state.name_ne t ht) walk) hmatch).trans (List.dropWhile_suffix _)
    obtain ⟨front, rfl⟩ := hsuffix
    have hinput : input = (pre ++ front) ++ walk' := by rw [hpre, List.append_assoc]
    have hlength : input.length - walk'.length = (pre ++ front).length := by
      rw [hinput]
      simp only [List.length_append]
      omega
    refine ⟨⟨pre ++ front, hinput.symm⟩, ?_⟩
    apply contextLines_mem (Nat.sub_le ..)
    rw [hlength, newlines, hinput, List.take_left, List.countP_append]
    omega

theorem inv_reaches (hp : Reaches included (start input) p) : Inv input p := by
  induction hp with
  | refl => exact inv_start input
  | tail _ hstep ih =>
    obtain ⟨p', hp', hinv, -⟩ := step_inv included ih
    rw [hstep] at hp'
    obtain rfl := Except.ok.inj hp'
    exact hinv

theorem ends_of_inv (h : Inv input p) : ∃ p', Reaches included p p' ∧ p'.walk = none := by
  induction hm : measure p using Nat.strong_induction_on generalizing p with
  | h n ih =>
    by_cases hwalk : p.walk = none
    · exact ⟨p, .refl, hwalk⟩
    · obtain ⟨p₁, hp₁, hinv, hlt⟩ := step_inv included h
      obtain ⟨p', hp', hend⟩ := ih (measure p₁) (hm ▸ hlt hwalk) hinv rfl
      exact ⟨p', .head hp₁ hp', hend⟩

/-- **Loading a configuration ends** without an exit, on every text, and on the way the list of states
is a path of at most ten states and the positions read at are in the text. -/
theorem config_ends (input : Text) (included : ConfigParser → ConfigState) :
    (∃ p, Reaches included (start input) p ∧ p.walk = none) ∧
      ∀ p, Reaches included (start input) p → Orderly included input p :=
  ⟨ends_of_inv (inv_start input), fun _ hp => (inv_reaches hp).orderly⟩

end ConfigParser

end I3.Parser
