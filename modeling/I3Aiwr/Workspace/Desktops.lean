import I3Aiwr.Tree.Calm
import I3Aiwr.Tree.Move
import I3Aiwr.Tree.TransientFor
import I3Aiwr.Workspace.Tour

/-!
# The desktops of EWMH

`src/src/ewmh.c` numbers the workspaces that are not internal, in the order of the outputs and of the
workspaces on them. It does so in several loops: those that count the desktops and that publish their names
and viewports, `ewmh_get_workspace_by_index` and `ewmh_get_workspace_index`, and `ewmh_update_wm_desktop`,
which gives each window the index of its workspace. A sticky window that floats is on all desktops, and so
is one on an internal workspace. There are not as many workspaces as 32 bits count.

## Main definitions

* `Desktop`: the value of `_NET_WM_DESKTOP`
* `Tree.forEachNonInternal`, and the loops under the names of their functions
* `Tree.InOutputs`: the workspaces are those of the outputs

## Main results

* `updateWmDesktopN_apply`: what is written below a container
* `ewmhUpdateWmDesktop_apply`: what is written for a window of a workspace
* `ewmhGetWorkspaceIndex_consistent`
* `not_consistent_sticky`: a sticky window
-/

namespace I3

/-- A value of `_NET_WM_DESKTOP`: an index, `NET_WM_DESKTOP_ALL` or `NET_WM_DESKTOP_NONE`. -/
inductive Desktop
  | index (n : ℕ)
  | all
  | none
  deriving DecidableEq, Repr

namespace Tree

variable (t : Tree)

/-! ### The loops -/

/-- `FOREACH_NONINTERNAL`: the workspaces that are not internal, each with its output. -/
def forEachNonInternal : List (ConId × ConId) :=
  (t.con t.croot).nodesHead.flatMap fun output =>
    ((t.workspacesOf output).filter fun ws => !t.isInternal ws).map fun ws => (output, ws)

/-- The index of `ewmh_update_number_of_desktops`. -/
def ewmhNumberOfDesktops : ℕ := t.forEachNonInternal.foldl (fun idx _ => idx + 1) 0

/-- The strings of `ewmh_update_desktop_names`, each with its NUL. -/
def ewmhDesktopNames : List String :=
  t.forEachNonInternal.foldl (fun names (_, ws) => names ++ [(t.con ws).name]) []

/-- The array of `ewmh_update_desktop_viewport`. -/
def ewmhDesktopViewport : List ℕ :=
  t.forEachNonInternal.foldl
    (fun viewports (output, _) => viewports ++ [u32 (t.con output).rect.x, u32 (t.con output).rect.y]) []

/-- The loop of `ewmh_get_workspace_by_index`. -/
def workspaceByIndexLoop (idx : ℕ) : List (ConId × ConId) → ℕ → Option ConId
  | [], _ => none
  | (_, ws) :: rest, currentIndex =>
    if currentIndex = idx then some ws else workspaceByIndexLoop idx rest (currentIndex + 1)

def ewmhGetWorkspaceByIndex : Desktop → Option ConId
  | .index idx => workspaceByIndexLoop idx t.forEachNonInternal 0
  | .all => none
  | .none => none

/-- The loop of `ewmh_get_workspace_index`. -/
def workspaceIndexLoop (targetWorkspace : Option ConId) : List (ConId × ConId) → ℕ → Desktop
  | [], _ => .none
  | (_, ws) :: rest, index =>
    if some ws = targetWorkspace then .index index else workspaceIndexLoop targetWorkspace rest (index + 1)

def ewmhGetWorkspaceIndex (c : ConId) : Desktop :=
  workspaceIndexLoop (t.getWorkspace c) t.forEachNonInternal 0

/-- The value for a window, on a workspace of the index `desktop`. -/
def wmDesktopOf (desktop : Desktop) (c : ConId) : Desktop :=
  if (t.getWorkspace c).any t.isInternal then .all
  else if t.isSticky c && t.isFloating c then .all
  else desktop

/-- `ewmh_update_wm_desktop_recursively`, on the values that are published. -/
def updateWmDesktopN (desktop : Desktop) : ℕ → (ConId → Desktop) → ConId → (ConId → Desktop)
  | 0, published, _ => published
  | n + 1, published, c =>
    let published := (t.con c).nodesHead.foldl (updateWmDesktopN desktop n) published
    let published := if (t.con c).type = .workspace then
        (t.con c).floatingHead.foldl (updateWmDesktopN desktop n) published
      else published
    if t.conHasManagedWindow c then Function.update published c (t.wmDesktopOf desktop c) else published

/-- The body of the loop of `ewmh_update_wm_desktop`, with the values and the next index. -/
def updateWorkspace (s : (ConId → Desktop) × ℕ) (workspace : ConId) : (ConId → Desktop) × ℕ :=
  (t.updateWmDesktopN (.index s.2) t.nextCon s.1 workspace,
    if t.isInternal workspace then s.2 else s.2 + 1)

def ewmhUpdateWmDesktop (published : ConId → Desktop) : ConId → Desktop :=
  ((t.con t.croot).nodesHead.foldl
    (fun s output => (t.workspacesOf output).foldl t.updateWorkspace s) (published, 0)).1

/-- The workspaces of the tree are those of the outputs. -/
structure InOutputs : Prop where
  type : ∀ o ∈ (t.con t.croot).nodesHead, ∀ w ∈ t.workspacesOf o, (t.con w).type = .workspace
  listed : ∀ w, t.Reach w → (t.con w).type = .workspace →
    ∃ o ∈ (t.con t.croot).nodesHead, w ∈ t.workspacesOf o

variable {t} {c ws x : ConId} {desktop : Desktop} {published : ConId → Desktop}

/-! ### What is written -/

/-- The value is written to the place if `Q` holds, and else the place is left as it was. -/
def Writes {α β : Type} (x : α) (v : β) (Q : Prop) (p p' : α → β) : Prop :=
  (Q → p' x = v) ∧ (¬ Q → p' x = p x)

section Writes

variable {α β γ : Type} {x : α} {v : β} {Q R : Prop} {p p' p'' : α → β}

theorem Writes.trans (h : Writes x v Q p p') (h' : Writes x v R p' p'') : Writes x v (Q ∨ R) p p'' := by
  refine ⟨fun hor => ?_, fun hnot => ?_⟩
  · by_cases hR : R
    · exact h'.1 hR
    · rw [h'.2 hR]
      exact h.1 (hor.resolve_right hR)
  · rw [h'.2 fun hR => hnot (.inr hR)]
    exact h.2 fun hQ => hnot (.inl hQ)

theorem Writes.congr (h : Writes x v Q p p') (hQR : R ↔ Q) : Writes x v R p p' :=
  ⟨fun hR => h.1 (hQR.mp hR), fun hR => h.2 fun hQ => hR (hQR.mpr hQ)⟩

/-- A loop each of whose steps may write the value. -/
theorem writes_foldl {f : (α → β) → γ → α → β} {Q : γ → Prop} {l : List γ}
    (hf : ∀ a ∈ l, ∀ p, Writes x v (Q a) p (f p a)) (p : α → β) :
    Writes x v (∃ a ∈ l, Q a) p (l.foldl f p) := by
  induction l generalizing p with
  | nil => exact ⟨fun ⟨_, ha, _⟩ => absurd ha List.not_mem_nil, fun _ => rfl⟩
  | cons a l ih =>
    refine Writes.congr ((hf a List.mem_cons_self p).trans ?_) (List.exists_mem_cons_iff _ _ _)
    exact ih (fun b hb => hf b (List.mem_cons_of_mem a hb)) (f p a)

theorem writes_update [DecidableEq α] {y : α} (v : α → β) (hQ : Q ↔ x = y) :
    Writes x (v x) Q p (Function.update p y (v y)) := by
  refine ⟨fun h => ?_, fun h => ?_⟩
  · obtain rfl := hQ.mp h
    exact Function.update_self ..
  · exact Function.update_of_ne (fun heq => h (hQ.mpr heq)) ..

end Writes

/-- **What `ewmh_update_wm_desktop_recursively` writes**: the value of each window at the container or
below it. -/
theorem writes_updateWmDesktopN (ht : Rooted t) (hl : Layered t) (hc : c < t.nextCon)
    (published : ConId → Desktop) (x : ConId) :
    Writes x (t.wmDesktopOf desktop x) (Descent.Within t.children c x ∧ t.conHasManagedWindow x = true)
      published (t.updateWmDesktopN desktop t.nextCon published c) := by
  refine ht.acyclic.fuel_induction ht.bounded (P := fun k c => ∀ published,
    Writes x (t.wmDesktopOf desktop x) (Descent.Within t.children c x ∧ t.conHasManagedWindow x = true)
      published (t.updateWmDesktopN desktop k published c)) (fun k c ih published => ?_) hc published
  have hbelow : Writes x (t.wmDesktopOf desktop x)
      (∃ y ∈ t.children c, Descent.Within t.children y x ∧ t.conHasManagedWindow x = true) published
      (if (t.con c).type = .workspace then
        (t.con c).floatingHead.foldl (t.updateWmDesktopN desktop k)
          ((t.con c).nodesHead.foldl (t.updateWmDesktopN desktop k) published)
      else (t.con c).nodesHead.foldl (t.updateWmDesktopN desktop k) published) := by
    have hnodes := writes_foldl (fun a ha p => ih a (List.mem_append_left _ ha) p) published
    split
    · refine (hnodes.trans (writes_foldl (fun a ha p => ih a (List.mem_append_right _ ha) p) _)).congr ?_
      simp only [children, List.mem_append, or_and_right, exists_or]
    · next htype =>
      -- only workspaces have floating windows
      have hnil : (t.con c).floatingHead = [] := by
        rw [List.eq_nil_iff_forall_not_mem]
        intro y hy
        exact htype (hl.floating c y hy)
      refine hnodes.congr ?_
      rw [children, hnil, List.append_nil]
  have hwithin : Descent.Within t.children c x ↔ (∃ y ∈ t.children c, Descent.Within t.children y x) ∨ x = c := by
    rw [Descent.within_iff, Descent.below_iff_head, or_comm]
  rw [updateWmDesktopN]
  by_cases hmanaged : t.conHasManagedWindow c = true
  · rw [if_pos hmanaged]
    refine (hbelow.trans (writes_update (Q := x = c) (t.wmDesktopOf desktop) Iff.rfl)).congr ?_
    rw [hwithin]
    constructor
    · rintro ⟨⟨y, hy, hyx⟩ | hx, hm⟩
      · exact .inl ⟨y, hy, hyx, hm⟩
      · exact .inr hx
    · rintro (⟨y, hy, hyx, hm⟩ | rfl)
      · exact ⟨.inl ⟨y, hy, hyx⟩, hm⟩
      · exact ⟨.inr rfl, hmanaged⟩
  · rw [if_neg hmanaged]
    refine hbelow.congr ?_
    rw [hwithin]
    constructor
    · rintro ⟨⟨y, hy, hyx⟩ | rfl, hm⟩
      · exact ⟨y, hy, hyx, hm⟩
      · exact absurd hm hmanaged
    · rintro ⟨y, hy, hyx, hm⟩
      exact ⟨.inl ⟨y, hy, hyx⟩, hm⟩

/-! ### Counting -/

/-- The workspaces of all outputs. -/
def allWorkspaces (t : Tree) : List ConId := (t.con t.croot).nodesHead.flatMap t.workspacesOf

theorem map_snd_forEachNonInternal :
    t.forEachNonInternal.map Prod.snd = t.allWorkspaces.filter fun ws => !t.isInternal ws := by
  rw [forEachNonInternal, allWorkspaces, List.map_flatMap, List.filter_flatMap]
  simp [Function.comp_def]

theorem mem_forEachNonInternal {output : ConId} :
    (output, ws) ∈ t.forEachNonInternal ↔
      output ∈ (t.con t.croot).nodesHead ∧ ws ∈ t.workspacesOf output ∧ t.isInternal ws = false := by
  simp [forEachNonInternal]

theorem ewmhNumberOfDesktops_eq : t.ewmhNumberOfDesktops = t.forEachNonInternal.length := by
  have hcount : ∀ (l : List (ConId × ConId)) (n : ℕ), l.foldl (fun idx _ => idx + 1) n = n + l.length := by
    intro l
    induction l with
    | nil => exact fun n => rfl
    | cons a l ih =>
      intro n
      rw [List.foldl_cons, ih, List.length_cons]
      omega
  rw [ewmhNumberOfDesktops, hcount, Nat.zero_add]

/-- A loop that appends to an array. -/
theorem foldl_append_eq {α β : Type} (f : α → List β) (l : List α) (acc : List β) :
    l.foldl (fun acc a => acc ++ f a) acc = acc ++ l.flatMap f := by
  induction l generalizing acc with
  | nil => simp
  | cons a l ih => rw [List.foldl_cons, ih, List.flatMap_cons, List.append_assoc]

theorem ewmhDesktopNames_eq :
    t.ewmhDesktopNames = t.forEachNonInternal.map fun p => (t.con p.2).name := by
  refine (foldl_append_eq (fun p : ConId × ConId => [(t.con p.2).name]) t.forEachNonInternal []).trans ?_
  rw [List.nil_append, List.map_eq_flatMap]

theorem workspaceByIndexLoop_eq {idx n : ℕ} (l : List (ConId × ConId)) (h : n ≤ idx) :
    workspaceByIndexLoop idx l n = l[idx - n]?.map Prod.snd := by
  induction l generalizing n with
  | nil => rfl
  | cons p l ih =>
    rw [workspaceByIndexLoop]
    split
    · next heq =>
      rw [heq, Nat.sub_self]
      rfl
    · next hne =>
      rw [ih (by omega), show idx - n = (idx - (n + 1)) + 1 by omega, List.getElem?_cons_succ]

theorem workspaceIndexLoop_eq {n : ℕ} (l : List (ConId × ConId)) (h : ws ∈ l.map Prod.snd) :
    workspaceIndexLoop (some ws) l n = .index (n + (l.map Prod.snd).idxOf ws) := by
  induction l generalizing n with
  | nil => cases h
  | cons p l ih =>
    rw [workspaceIndexLoop, List.map_cons]
    by_cases heq : p.2 = ws
    · rw [if_pos (by rw [heq]), heq, List.idxOf_cons_self, Nat.add_zero]
    · rw [if_neg (by simpa using heq), List.idxOf_cons_ne _ heq,
        ih ((List.mem_cons.mp h).resolve_left (Ne.symm heq))]
      congr 1
      omega

/-- Each workspace that is not internal takes the array of the viewports two numbers further. -/
theorem flatMap_pair_getElem? {α β : Type} (f g : α → β) (l : List α) (i : ℕ) :
    (l.flatMap fun a => [f a, g a])[2 * i]? = l[i]?.map f ∧
      (l.flatMap fun a => [f a, g a])[2 * i + 1]? = l[i]?.map g := by
  induction l generalizing i with
  | nil => simp
  | cons a l ih =>
    cases i with
    | zero => simp
    | succ i =>
      have hstep : 2 * (i + 1) = 2 * i + 1 + 1 := by omega
      rw [List.flatMap_cons, hstep]
      simpa using ih i

/-! ### The windows of a workspace -/

theorem updateWorkspace_foldl_snd (l : List ConId) (s : (ConId → Desktop) × ℕ) :
    (l.foldl t.updateWorkspace s).2 = s.2 + (l.filter fun ws => !t.isInternal ws).length := by
  induction l generalizing s with
  | nil => rfl
  | cons w l ih =>
    rw [List.foldl_cons, ih, updateWorkspace]
    cases hint : t.isInternal w with
    | false =>
      rw [List.filter_cons_of_pos (by simp [hint]), List.length_cons]
      simp
      omega
    | true => rw [List.filter_cons_of_neg (by simp [hint])]; simp

/-- Other workspaces leave the value of a window alone. -/
theorem updateWorkspace_foldl_apply (ht : Rooted t) (hl : Layered t) {l : List ConId}
    (hmem : ∀ w ∈ l, w < t.nextCon ∧ ¬ Descent.Within t.children w x) (s : (ConId → Desktop) × ℕ) :
    (l.foldl t.updateWorkspace s).1 x = s.1 x := by
  induction l generalizing s with
  | nil => rfl
  | cons w l ih =>
    obtain ⟨hlt, hnot⟩ := hmem w List.mem_cons_self
    rw [List.foldl_cons, ih fun v hv => hmem v (List.mem_cons_of_mem w hv)]
    exact (writes_updateWmDesktopN ht hl hlt s.1 x).2 fun h => hnot h.1

theorem ewmhUpdateWmDesktop_eq :
    t.ewmhUpdateWmDesktop published = (t.allWorkspaces.foldl t.updateWorkspace (published, 0)).1 := by
  rw [ewmhUpdateWmDesktop, allWorkspaces, List.foldl_flatMap]

section Index

variable (ht : Rooted t) (hl : Layered t) (ho : InOutputs t)

include ht ho in
theorem InOutputs.of_mem {w : ConId} (hw : w ∈ t.allWorkspaces) :
    w < t.nextCon ∧ (t.con w).type = .workspace := by
  obtain ⟨o, hmem, hw⟩ := List.mem_flatMap.mp hw
  obtain ⟨content, -, -, hnodes⟩ := exists_content hw
  refine ⟨ht.bounded content w (List.mem_append_left _ ?_), ho.type o hmem w hw⟩
  rwa [hnodes]

variable {pre post : List ConId} (hsplit : t.allWorkspaces = pre ++ ws :: post)

include ht hsplit in
theorem not_mem_of_split : ws ∉ pre ∧ ws ∉ post := by
  have hnodup : t.allWorkspaces.Nodup := ht.nodup_flatMap_workspacesOf (ht.nodupNodes t.croot)
  rw [hsplit, List.nodup_middle, List.nodup_cons, List.mem_append] at hnodup
  exact ⟨fun h => hnodup.1 (.inl h), fun h => hnodup.1 (.inr h)⟩

include ht hl ho hsplit in
/-- **The value of a window** is from the number of workspaces ahead of its own that are not internal. -/
theorem ewmhUpdateWmDesktop_apply (hx : t.Reach x) (hws : t.getWorkspace x = some ws)
    (hmanaged : t.conHasManagedWindow x = true) :
    t.ewmhUpdateWmDesktop published x =
      t.wmDesktopOf (.index (pre.filter fun w => !t.isInternal w).length) x := by
  obtain ⟨htype, hwithin⟩ := ht.getWorkspace_spec hx hws
  have hmem : ∀ w, w ∈ ws :: post → w ∈ t.allWorkspaces := by
    intro w hw
    rw [hsplit]
    exact List.mem_append_right _ hw
  have hpost : ∀ w ∈ post, w < t.nextCon ∧ ¬ Descent.Within t.children w x := by
    intro w hw
    obtain ⟨hlt, hwtype⟩ := ho.of_mem ht (hmem w (List.mem_cons_of_mem _ hw))
    refine ⟨hlt, fun hwx => ?_⟩
    obtain rfl := hl.unique ht hwtype htype hwx hwithin
    exact (not_mem_of_split ht hsplit).2 hw
  rw [ewmhUpdateWmDesktop_eq, hsplit, List.foldl_append, List.foldl_cons,
    updateWorkspace_foldl_apply ht hl hpost, updateWorkspace, updateWorkspace_foldl_snd, Nat.zero_add]
  exact (writes_updateWmDesktopN ht hl (ho.of_mem ht (hmem ws List.mem_cons_self)).1 _ x).1
    ⟨hwithin, hmanaged⟩

end Index

/-- **The index of a workspace** that is not internal is the same everywhere: it is found by the index, and
at the index are its name and the viewport of its output, and the windows on it have the index, but for
those that are sticky and float. -/
theorem ewmhGetWorkspaceIndex_consistent (t : Tree) (ht : Rooted t) (hl : Layered t) (ho : InOutputs t)
    (published : ConId → Desktop) (c ws : ConId) (hc : t.Reach c) (hws : t.getWorkspace c = some ws)
    (hint : t.isInternal ws = false) :
    ∃ i, t.ewmhGetWorkspaceIndex c = .index i ∧ t.ewmhGetWorkspaceByIndex (.index i) = some ws ∧
      (∀ x, t.Reach x → t.getWorkspace x = some ws → t.conHasManagedWindow x = true →
        t.ewmhUpdateWmDesktop published x =
          if t.isSticky x = true ∧ t.isFloating x = true then .all else .index i) ∧
      i < t.ewmhNumberOfDesktops ∧ t.ewmhDesktopNames[i]? = some (t.con ws).name ∧
      ∃ o ∈ (t.con t.croot).nodesHead, ws ∈ t.workspacesOf o ∧
        t.ewmhDesktopViewport[2 * i]? = some (u32 (t.con o).rect.x) ∧
        t.ewmhDesktopViewport[2 * i + 1]? = some (u32 (t.con o).rect.y) := by
  obtain ⟨htype, hwithin⟩ := ht.getWorkspace_spec hc hws
  obtain ⟨o, hmem, hwso⟩ := ho.listed ws (ht.reach_of_within hc hwithin) htype
  have hlisted : ws ∈ t.allWorkspaces := List.mem_flatMap.mpr ⟨o, hmem, hwso⟩
  obtain ⟨pre, post, hsplit⟩ := List.append_of_mem hlisted
  have hnotpre := (not_mem_of_split ht hsplit).1
  have hlist : t.forEachNonInternal.map Prod.snd =
      pre.filter (fun w => !t.isInternal w) ++ ws :: post.filter fun w => !t.isInternal w := by
    rw [map_snd_forEachNonInternal, hsplit, List.filter_append, List.filter_cons_of_pos (by simp [hint])]
  have hidx : (t.forEachNonInternal.map Prod.snd).idxOf ws =
      (pre.filter fun w => !t.isInternal w).length := by
    rw [hlist, List.idxOf_append_of_notMem fun h => hnotpre (List.mem_of_mem_filter h), List.idxOf_cons_self,
      Nat.add_zero]
  have hget : (t.forEachNonInternal.map Prod.snd)[(pre.filter fun w => !t.isInternal w).length]? = some ws := by
    rw [hlist]
    simp
  rw [List.getElem?_map, Option.map_eq_some_iff] at hget
  obtain ⟨⟨o', w⟩, hget, rfl⟩ := hget
  obtain ⟨ho', hw', -⟩ := mem_forEachNonInternal.mp (List.mem_of_getElem? hget)
  refine ⟨(pre.filter fun w => !t.isInternal w).length, ?_, ?_, ?_, ?_, ?_, o', ho', hw', ?_⟩
  · have hin : w ∈ t.forEachNonInternal.map Prod.snd := by
      rw [hlist]
      exact List.mem_append_right _ List.mem_cons_self
    rw [ewmhGetWorkspaceIndex, hws, workspaceIndexLoop_eq _ hin, hidx, Nat.zero_add]
  · rw [ewmhGetWorkspaceByIndex, workspaceByIndexLoop_eq _ (Nat.zero_le _), Nat.sub_zero, hget]
    rfl
  · intro x hx hxws hmanaged
    rw [ewmhUpdateWmDesktop_apply ht hl ho hsplit hx hxws hmanaged, wmDesktopOf, hxws]
    simp [hint]
  · rw [ewmhNumberOfDesktops_eq]
    exact (List.getElem?_eq_some_iff.mp hget).1
  · rw [ewmhDesktopNames_eq, List.getElem?_map, hget]
    rfl
  · have hviewport := flatMap_pair_getElem? (fun p : ConId × ConId => u32 (t.con p.1).rect.x)
      (fun p => u32 (t.con p.1).rect.y) t.forEachNonInternal (pre.filter fun w => !t.isInternal w).length
    rw [hget] at hviewport
    rw [ewmhDesktopViewport, foldl_append_eq, List.nil_append]
    exact hviewport

/-! ### A sticky window -/

/-- The internal output, and one with a workspace that has a tiling window and a sticky one that floats. -/
def stickyFloating : Tree := ofList [
  { type := .root, layout := .splith, nodesHead := [1, 4], focusHead := [4, 1] },
  { type := .output, parent := some 0, name := "__i3", layout := .output, nodesHead := [2], focusHead := [2] },
  { parent := some 1, layout := .splith, nodesHead := [3], focusHead := [3] },
  { type := .workspace, parent := some 2, name := "__i3_scratch", layout := .splith },
  { type := .output, parent := some 0, name := "eDP-1", layout := .output, nodesHead := [5], focusHead := [5] },
  { parent := some 4, layout := .splith, nodesHead := [6], focusHead := [6] },
  { type := .workspace, parent := some 5, name := "1", num := 1, layout := .splith, nodesHead := [7],
    floatingHead := [8], focusHead := [7, 8] },
  { parent := some 6, window := some { id := 1 } },
  { type := .floatingCon, parent := some 6, layout := .splith, nodesHead := [9], focusHead := [9] },
  { parent := some 8, window := some { id := 2 }, floating := .userOn, sticky := true }] (some 7)

theorem rooted_stickyFloating : Rooted stickyFloating := rooted_ofList (by decide +kernel) (by decide +kernel)

theorem layered_stickyFloating : Layered stickyFloating :=
  (healthy_ofList (· ∈ [7, 8, 9]) rooted_stickyFloating (by decide +kernel)).layered

theorem inOutputs_stickyFloating : InOutputs stickyFloating where
  type := by decide +kernel
  listed := by
    intro w _ hw
    have hall : ∀ w < 10, (stickyFloating.con w).type = .workspace →
        ∃ o ∈ (stickyFloating.con stickyFloating.croot).nodesHead, w ∈ stickyFloating.workspacesOf o := by
      decide +kernel
    by_cases hlt : w < 10
    · exact hall w hlt hw
    · rw [stickyFloating, ofList_con hlt] at hw
      cases hw

theorem consistent_stickyFloating :
    ∃ i, stickyFloating.ewmhGetWorkspaceIndex 7 = .index i ∧
      stickyFloating.ewmhGetWorkspaceByIndex (.index i) = some 6 ∧
      (∀ x, stickyFloating.Reach x → stickyFloating.getWorkspace x = some 6 →
        stickyFloating.conHasManagedWindow x = true →
        stickyFloating.ewmhUpdateWmDesktop (fun _ => .none) x =
          if stickyFloating.isSticky x = true ∧ stickyFloating.isFloating x = true then .all else .index i) ∧
      i < stickyFloating.ewmhNumberOfDesktops ∧
      stickyFloating.ewmhDesktopNames[i]? = some (stickyFloating.con 6).name ∧
      ∃ o ∈ (stickyFloating.con stickyFloating.croot).nodesHead, 6 ∈ stickyFloating.workspacesOf o ∧
        stickyFloating.ewmhDesktopViewport[2 * i]? = some (u32 (stickyFloating.con o).rect.x) ∧
        stickyFloating.ewmhDesktopViewport[2 * i + 1]? = some (u32 (stickyFloating.con o).rect.y) :=
  ewmhGetWorkspaceIndex_consistent stickyFloating rooted_stickyFloating layered_stickyFloating
    inOutputs_stickyFloating (fun _ => .none) 7 6
    (reach_of_isChain (l := [4, 5, 6, 7]) reach_croot (by decide +kernel) (by simp)) (by decide +kernel)
    (by decide +kernel)

/-- A sticky window that floats is published on all desktops, which is no index of a workspace. -/
theorem not_consistent_sticky :
    Rooted stickyFloating ∧ Layered stickyFloating ∧ InOutputs stickyFloating ∧
      stickyFloating.getWorkspace 9 = some 6 ∧ stickyFloating.isInternal 6 = false ∧
      stickyFloating.conHasManagedWindow 9 = true ∧
      stickyFloating.ewmhGetWorkspaceIndex 9 = .index 0 ∧
      stickyFloating.ewmhUpdateWmDesktop (fun _ => .none) 9 = .all ∧
      stickyFloating.ewmhGetWorkspaceByIndex .all = none :=
  ⟨rooted_stickyFloating, layered_stickyFloating, inOutputs_stickyFloating, by decide +kernel, by decide +kernel,
    by decide +kernel, by decide +kernel, by decide +kernel, rfl⟩

end Tree

end I3
