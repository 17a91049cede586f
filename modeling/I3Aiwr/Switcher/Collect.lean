import I3Aiwr.Tree.Query

/-!
# The window switcher

`src/switcher.c`: the switcher lists the windows below the root. `sw_collect` walks down the focus
stacks, then down the list of floating windows, and stops when the list is full.

## Main definitions

* `Tree.swCollect frame maxItems c`: the items collected below `c`
* `SwitcherConfig.configured`: the configuration after a list of `switcher max_items` directives
-/

namespace I3

/-- `switcher_config`, as far as the list depends on it. -/
structure SwitcherConfig where
  maxItems : ℤ := 8
  deriving DecidableEq, Repr

/-- `aiwr_clamp`. -/
def aiwrClamp (v lo hi : ℤ) : ℤ := if v < lo then lo else if v > hi then hi else v

namespace SwitcherConfig

/-- `cfg_switcher_max_items`. -/
def switcherMaxItems (cfg : SwitcherConfig) (n : ℤ) : SwitcherConfig :=
  { cfg with maxItems := aiwrClamp n 2 32 }

/-- The configuration after the directives `switcher max_items n`. -/
def configured (directives : List ℤ) : SwitcherConfig := directives.foldl switcherMaxItems {}

/-- Every configured number is one that `sw.items` has slots for. -/
theorem configured_maxItems (directives : List ℤ) :
    2 ≤ (configured directives).maxItems ∧ (configured directives).maxItems ≤ 32 := by
  induction directives using List.reverseRecOn with
  | nil => simp [configured]
  | append_singleton l n _ =>
    rw [configured, List.foldl_append, List.foldl_cons, List.foldl_nil, switcherMaxItems]
    dsimp only [aiwrClamp]
    split
    · simp
    · split <;> omega

end SwitcherConfig

/-- `sw_item_t`: a listed container and the X11 window of its frame. -/
structure SwItem where
  con : ConId
  frame : ℕ
  deriving DecidableEq, Repr

namespace Tree

variable (t : Tree)

/-- `con->window != NULL && con->window->id != XCB_NONE`. -/
def hasWindow (c : ConId) : Bool := (t.con c).window.any fun w => w.id ≠ 0

/-- `sw_collect` with the items collected so far. `frame c` is the identifier of the frame of
`c`. -/
def swCollectN (cfg : SwitcherConfig) (frame : ConId → ℕ) :
    ℕ → List SwItem → ConId → List SwItem
  | 0, items, _ => items
  | n + 1, items, c =>
    if items.length ≥ cfg.maxItems then items
    else if (t.con c).type = .workspace ∧ t.isInternal c then items
    else if t.hasWindow c then items ++ [⟨c, frame c⟩]
    else
      let items := (t.con c).focusHead.foldl (swCollectN cfg frame n) items
      (t.con c).floatingHead.foldl (swCollectN cfg frame n) items

/-- The items after `sw_collect(croot)`, from an empty list. -/
def swCollect (cfg : SwitcherConfig) (frame : ConId → ℕ) : List SwItem :=
  t.swCollectN cfg frame t.nextCon [] t.croot

/-! ### As a walk -/

/-- The list has no entries below such a container: a window, or an internal workspace. -/
def swStops (c : ConId) : Bool :=
  ((t.con c).type = .workspace && t.isInternal c) || t.hasWindow c

/-- The switcher lists the container where it meets it. -/
def swLists (c : ConId) : Bool :=
  !((t.con c).type = .workspace && t.isInternal c) && t.hasWindow c

/-- The containers the switcher visits below `c`. -/
def swChildren (c : ConId) : List ConId := if t.swStops c then [] else (t.con c).focusHead

/-- The containers it visits after those. -/
def swAgain (c : ConId) : List ConId := if t.swStops c then [] else (t.con c).floatingHead

end Tree

end I3
