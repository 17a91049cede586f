import I3Aiwr.Lib.Links
import I3Aiwr.Tree.Query
import I3Aiwr.Tree.Rooted

/-!
# Windows that are transient for others

`con_find_transient_for_window` in `src/src/con.c` follows `WM_TRANSIENT_FOR` from container to container.
Against cycles it stops after as many links as `con_num_windows` finds windows below the root, and
`con_num_windows` leaves out those that are on no workspace, such as dock clients.

## Main definitions

* `Tree.conNumWindows`, `Tree.conFindTransientForWindow`
* `Tree.FindsTransient`: the target is reached through managed windows

## Main results

* `conFindTransientForWindow_iff`: what is found is what is reached within that many links
* `findsTransient_of_counted`: that is everything, if all windows but one are counted
* `conFindTransientForWindow_eq_true_iff`
* `not_findsTransient_dock`: two dock clients
-/

namespace I3

namespace Tree

variable (t : Tree)

/-! ### The search -/

def conHasManagedWindow (c : ConId) : Bool :=
  (t.con c).window.any (fun w => w.id ≠ 0) && (t.getWorkspace c).isSome

/-- The recursion of `con_num_windows`. -/
def conNumWindowsN : ℕ → ConId → ℕ
  | 0, _ => 0
  | n + 1, c =>
    if t.conHasManagedWindow c then 1
    else ((t.con c).nodesHead.map (conNumWindowsN n)).sum +
      ((t.con c).floatingHead.map (conNumWindowsN n)).sum

def conNumWindows (c : ConId) : ℕ := t.conNumWindowsN t.nextCon c

def conByWindowId (window : ℕ) : Option ConId :=
  t.allCons.find? fun c => (t.con c).window.any fun w => w.id = window

-- `WM_TRANSIENT_FOR` of the windows
variable (transientFor : ℕ → Option ℕ)

/-- `con->window->transient_for`, `none` for `XCB_NONE`. -/
def transientForOf (c : ConId) : Option ℕ := (t.con c).window.bind fun w => transientFor w.id

/-- The loop of `con_find_transient_for_window`. -/
def findTransientLoop (target : ℕ) : ℕ → ConId → Bool
  | count, transientCon =>
    match t.transientForOf transientFor transientCon with
    | none => false
    | some w =>
      if w = target then true
      else match t.conByWindowId w with
        | none => false
        | some nextTransient =>
          if transientCon = nextTransient then false
          else match count with
            | 0 => false
            | count + 1 => findTransientLoop target count nextTransient

def conFindTransientForWindow (start : ConId) (target : ℕ) : Bool :=
  t.findTransientLoop transientFor target (t.conNumWindows t.croot) start

/-! ### What is to be found -/

/-- The container of the window that the container's is transient for, if that is managed. -/
def nextTransient (c : ConId) : Option ConId :=
  (t.transientForOf transientFor c).bind t.conByWindowId

/-- The target is reached from the start by following `WM_TRANSIENT_FOR` through managed windows. -/
def FindsTransient (start : ConId) (target : ℕ) : Prop :=
  ∃ c, Relation.ReflTransGen (fun c d => d ∈ t.nextTransient transientFor c) start c ∧
    t.transientForOf transientFor c = some target

/-- The target is reached through that many windows after the start. -/
def FindsTransientAfter (n : ℕ) (start : ConId) (target : ℕ) : Prop :=
  Links.After (t.nextTransient transientFor) (fun c => t.transientForOf transientFor c = some target) n start

variable {t transientFor} {start : ConId} {target : ℕ}

theorem findsTransient_iff :
    t.FindsTransient transientFor start target ↔
      ∃ n, t.FindsTransientAfter transientFor n start target :=
  Links.exists_after_iff.symm

/-- **The loop** finds what is reached before the count is down. -/
theorem findTransientLoop_iff (count : ℕ) (c : ConId) :
    t.findTransientLoop transientFor target count c = true ↔
      ∃ n ≤ count, t.FindsTransientAfter transientFor n c target := by
  fun_induction findTransientLoop t transientFor target count c with
  | case1 count c hw =>
    have hnext : t.nextTransient transientFor c = none := by rw [nextTransient, hw]; rfl
    simp only [Bool.false_eq_true, false_iff]
    rintro ⟨n, -, h⟩
    exact Links.not_after_of_none hnext (by simp [hw]) n h
  | case2 count c hw =>
    simp only [true_iff]
    exact ⟨0, Nat.zero_le _, hw⟩
  | case3 count c w hw hne hcon =>
    have hnext : t.nextTransient transientFor c = none := by rw [nextTransient, hw]; exact hcon
    simp only [Bool.false_eq_true, false_iff]
    rintro ⟨n, -, h⟩
    exact Links.not_after_of_none hnext (by simpa [hw] using hne) n h
  | case4 count w hne c hcon hw =>
    -- a window that is transient for itself
    have hnext : c ∈ t.nextTransient transientFor c := by rw [nextTransient, hw]; exact hcon
    simp only [Bool.false_eq_true, false_iff]
    rintro ⟨n, -, h⟩
    exact Links.not_after_of_self hnext (by simpa [hw] using hne) n h
  | case5 c w hw hne d hcon hcd =>
    simp only [Bool.false_eq_true, false_iff, FindsTransientAfter, Links.exists_after_le_zero, hw,
      Option.some.injEq]
    exact hne
  | case6 c w hw hne d hcon hcd count ih =>
    have hnext : d ∈ t.nextTransient transientFor c := by rw [nextTransient, hw]; exact hcon
    rw [ih]
    exact (Links.exists_after_le_succ (by simpa [hw] using hne) hnext).symm

theorem conFindTransientForWindow_iff :
    t.conFindTransientForWindow transientFor start target = true ↔
      ∃ n ≤ t.conNumWindows t.croot, t.FindsTransientAfter transientFor n start target :=
  findTransientLoop_iff _ _

/-! ### When it is found -/

/-- The containers with windows. -/
def withWindow (t : Tree) : List ConId := t.allCons.filter fun c => (t.con c).window.isSome

theorem mem_withWindow_of_nextTransient {c d : ConId} (h : d ∈ t.nextTransient transientFor c) :
    d ∈ t.withWindow := by
  obtain ⟨w, -, hd⟩ := Option.mem_bind_iff.mp h
  have hw := List.find?_some hd
  rw [withWindow, List.mem_filter]
  refine ⟨List.mem_of_find?_eq_some hd, ?_⟩
  cases hwindow : (t.con d).window with
  | none => rw [hwindow] at hw; cases hw
  | some _ => rfl

/-- **Where all windows but one are counted**, what is reached is found. -/
theorem findsTransient_of_counted (hstart : start ∈ t.allCons)
    (hcount : t.withWindow.length ≤ t.conNumWindows t.croot + 1) :
    t.conFindTransientForWindow transientFor start target = true ↔
      t.FindsTransient transientFor start target := by
  rw [conFindTransientForWindow_iff, findsTransient_iff]
  refine ⟨fun ⟨n, _, h⟩ => ⟨n, h⟩, fun h => ?_⟩
  by_cases hwindow : (t.con start).window.isSome
  · have hmem : start ∈ t.withWindow := List.mem_filter.mpr ⟨hstart, hwindow⟩
    obtain ⟨n, hn, h⟩ := Links.exists_after_lt_length hmem
      (fun x _ y hy => mem_withWindow_of_nextTransient hy) h
    exact ⟨n, by omega, h⟩
  · -- without a window there is nothing to follow
    obtain ⟨n, h⟩ := h
    have hnone : t.transientForOf transientFor start = none := by
      rw [transientForOf, Option.not_isSome_iff_eq_none.mp hwindow]
      rfl
    exact absurd h (Links.not_after_of_none (by rw [nextTransient, hnone]; rfl) (by simp [hnone]) n)

/-- **`con_find_transient_for_window`** is right exactly if the target, where it is reached, is reached
through at most as many windows after the start as `con_num_windows` counts below the root. -/
theorem conFindTransientForWindow_eq_true_iff (t : Tree) (transientFor : ℕ → Option ℕ) (start : ConId)
    (target : ℕ) :
    (t.conFindTransientForWindow transientFor start target = true ↔
        t.FindsTransient transientFor start target) ↔
      ∀ n, t.FindsTransientAfter transientFor n start target →
        ∃ m ≤ t.conNumWindows t.croot, t.FindsTransientAfter transientFor m start target := by
  rw [conFindTransientForWindow_iff, findsTransient_iff]
  constructor
  · intro h n hn
    exact h.mpr ⟨n, hn⟩
  · intro h
    exact ⟨fun ⟨n, _, hn⟩ => ⟨n, hn⟩, fun ⟨n, hn⟩ => h n hn⟩

/-- An output with two dock clients in its dock area, and a workspace without windows. -/
def twoDocks : Tree := ofList [
  { type := .root, layout := .splith, nodesHead := [1], focusHead := [1] },
  { type := .output, parent := some 0, layout := .output, nodesHead := [2, 5], focusHead := [5, 2] },
  { type := .dockarea, parent := some 1, layout := .dockarea, nodesHead := [3, 4], focusHead := [4, 3] },
  { parent := some 2, window := some { id := 1 } },
  { parent := some 2, window := some { id := 2 } },
  { parent := some 1, layout := .splith, nodesHead := [6], focusHead := [6] },
  { type := .workspace, parent := some 5, name := "1", num := 1, layout := .splith }] (some 6)

/-- The one dock client is transient for the other, and that for a third window. -/
theorem not_findsTransient_dock :
    ∃ (t : Tree) (transientFor : ℕ → Option ℕ) (start : ConId) (target : ℕ),
      t.FindsTransient transientFor start target ∧
      t.conFindTransientForWindow transientFor start target = false := by
  refine ⟨twoDocks, fun w => if w = 1 then some 2 else if w = 2 then some 7 else none, 3, 7, ?_, ?_⟩
  · exact ⟨4, .single (by decide), by decide⟩
  · decide

end Tree

end I3
