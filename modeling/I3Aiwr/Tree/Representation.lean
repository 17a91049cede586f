import I3Aiwr.Lib.Brackets
import I3Aiwr.Tree.Rooted

/-!
# The text and the minimum size of a subtree

`con_get_tree_representation`, the text in the title of a split container, and `con_minimum_size`,
both of `src/con.c`. Both recurse into the tiling children and end in `assert(false)` for a layout
they do not know; `none` stands for that. Of the layouts a container with children can have, the
text lacks `L_SCROLLING`, and so does the minimum size, because `con_is_split` says no.

## Main definitions

* `Tree.treeRepresentation`, `Tree.minimumSize`
* `Tree.leaves`: the leaves below a container, in tree order
* `Piece`: the pieces of the text
* `Tree.Represented`: both functions return, and the text is what it should be

## Main results

* `Tree.represented_iff`: exactly when no container with children scrolls (or has another layout the
  text does not know)
-/

namespace I3

/-! ### The source -/

/-- The layout and the opening bracket; `none` where the source asserts. -/
def Layout.opening : Layout → Option String
  | .default => some "D["
  | .splitv => some "V["
  | .splith => some "H["
  | .tabbed => some "T["
  | .stacked => some "S["
  | .scrolling | .dockarea | .output => none

namespace Tree

variable (t : Tree) (deco : ConId → Rect)

/-- The text of a leaf. -/
def leafText (c : ConId) : String :=
  match (t.con c).window with
  | none => "nowin"
  | some w => w.classInstance.getD "noinstance"

/-- The recursion of `con_get_tree_representation`. -/
def treeRepresentationN : ℕ → ConId → Option String
  | 0, _ => none
  | n + 1, c =>
    if t.isLeaf c then some (t.leafText c)
    else do
      let buf ← (t.con c).layout.opening
      let buf ← (t.con c).nodesHead.foldlM (fun buf child => do
        let text ← treeRepresentationN n child
        return buf ++ (if (t.con c).nodesHead.head? = some child then "" else " ") ++ text) buf
      return buf ++ "]"

/-- `con_get_tree_representation`. -/
def treeRepresentation (c : ConId) : Option String := t.treeRepresentationN t.nextCon c

/-- Addition of unsigned 32-bit numbers. -/
def addU32 (m n : ℕ) : ℕ := (m + n) % 2 ^ 32

/-- A child of a stacked or tabbed container: the maximum so far, and the height of the
decorations. -/
def stackMinimum (minimum : ConId → Option Rect) (s : Rect × ℕ) (child : ConId) :
    Option (Rect × ℕ) :=
  (minimum child).map fun min =>
    ({ s.1 with width := max s.1.width min.width, height := max s.1.height min.height },
      addU32 s.2 (deco child).height)

/-- A child of a split container: the sum along its orientation, the maximum across. -/
def splitMinimum (layout : Layout) (minimum : ConId → Option Rect) (r : Rect) (child : ConId) :
    Option Rect :=
  (minimum child).map fun min =>
    if layout = .splith then
      { r with width := addU32 r.width min.width, height := max r.height min.height }
    else { r with height := addU32 r.height min.height, width := max r.width min.width }

/-- The recursion of `con_minimum_size`. The decorations of the children are given by `deco`. -/
def minimumSizeN : ℕ → ConId → Option Rect
  | 0, _ => none
  | n + 1, c =>
    if t.isLeaf c then some { width := 75, height := 50 }
    else if (t.con c).type = .floatingCon then (t.con c).nodesHead.head?.bind (minimumSizeN n)
    else if (t.con c).layout = .stacked ∨ (t.con c).layout = .tabbed then
      ((t.con c).nodesHead.foldlM (stackMinimum deco (minimumSizeN n)) ({}, 0)).map
        fun s => { s.1 with height := addU32 s.1.height s.2 }
    else if t.isSplit c then
      (t.con c).nodesHead.foldlM (splitMinimum (t.con c).layout (minimumSizeN n)) {}
    else none

/-- `con_minimum_size`. -/
def minimumSize (c : ConId) : Option Rect := t.minimumSizeN deco t.nextCon c

/-! ### The pieces of the text -/

/-- The leaves below a container, at most `n` levels down. -/
def leavesN : ℕ → ConId → List ConId
  | 0, _ => []
  | n + 1, c => if t.isLeaf c then [c] else (t.con c).nodesHead.flatMap (leavesN n)

/-- The leaves below a container, in tree order. -/
def leaves (c : ConId) : List ConId := t.leavesN t.nextCon c

end Tree

/-- A piece of the text. -/
inductive Piece
  | opening (layout : Layout)
  | closing
  | space
  | name (leaf : ConId)

namespace Piece

def side : Piece → Brackets.Side
  | opening _ => .opening
  | closing => .closing
  | space | name _ => .plain

def leaf? : Piece → Option ConId
  | name c => some c
  | opening _ | closing | space => none

/-- How a piece is written. -/
def text (t : Tree) : Piece → String
  | opening layout => layout.opening.getD ""
  | closing => "]"
  | space => " "
  | name c => t.leafText c

/-- How pieces are written one after another. -/
def write (t : Tree) (ps : List Piece) : String := ps.foldr (fun p s => p.text t ++ s) ""

@[simp] theorem write_nil (t : Tree) : write t [] = "" := rfl

@[simp] theorem write_cons (t : Tree) (p : Piece) (ps : List Piece) :
    write t (p :: ps) = p.text t ++ write t ps := rfl

@[simp] theorem write_append (t : Tree) (ps qs : List Piece) :
    write t (ps ++ qs) = write t ps ++ write t qs := by
  induction ps with
  | nil => simp
  | cons p ps ih => simp [ih, String.append_assoc]

end Piece

/-- The brackets in a text. -/
def charSide (c : Char) : Brackets.Side :=
  if c = '[' then .opening else if c = ']' then .closing else .plain

namespace Tree

variable {t : Tree} {deco : ConId → Rect} {c : ConId}

/-- The pieces of the children, with spaces between them. -/
def joined (f : ConId → List Piece) : List ConId → List Piece
  | [] => []
  | d :: ds => f d ++ ds.flatMap fun e => .space :: f e

/-- What the two functions should do with a container: return a value, the text made of pieces with
balanced brackets that name the leaves in tree order. If the names of the windows have balanced
brackets themselves, so has the text as it reads. -/
structure Represented (t : Tree) (deco : ConId → Rect) (c : ConId) : Prop where
  minimumSize : (t.minimumSize deco c).isSome
  pieces : ∃ ps, t.treeRepresentation c = some (Piece.write t ps)
    ∧ Brackets.Balanced Piece.side ps ∧ ps.filterMap Piece.leaf? = t.leaves c
  text : ∀ s, t.treeRepresentation c = some s →
    (∀ d ∈ t.leaves c, Brackets.Balanced charSide (t.leafText d).toList) →
      Brackets.Balanced charSide s.toList

/-- No container with children at or below `c` has a layout that the text does not know. -/
def Written (t : Tree) (c : ConId) : Prop :=
  ∀ d, Descent.Within (fun p => (t.con p).nodesHead) c d → ¬ t.isLeaf d →
    (t.con d).layout ∈ [Layout.default, .splitv, .splith, .tabbed, .stacked]

/-! ### Folding over the children -/

section Fold

variable {σ : Type} {f : σ → ConId → Option σ} {l : List ConId}

/-- A loop over the children returns when each of its steps does. -/
theorem isSome_foldlM (h : ∀ d ∈ l, ∀ s, (f s d).isSome) (s : σ) : (l.foldlM f s).isSome := by
  induction l generalizing s with
  | nil => rfl
  | cons d l ih =>
    obtain ⟨s', hs'⟩ := Option.isSome_iff_exists.mp (h d List.mem_cons_self s)
    rw [List.foldlM_cons, hs']
    exact ih (fun e he => h e (List.mem_cons_of_mem d he)) s'

/-- And it does not return when one of them does not. -/
theorem foldlM_eq_none (h : ∃ d ∈ l, ∀ s, f s d = none) (s : σ) : l.foldlM f s = none := by
  induction l generalizing s with
  | nil => simp at h
  | cons d l ih =>
    obtain ⟨e, he, hnone⟩ := h
    rw [List.foldlM_cons]
    rcases List.mem_cons.mp he with rfl | he
    · rw [hnone s]
      rfl
    · cases hs : f s d with
      | none => rfl
      | some s' => exact ih ⟨e, he, hnone⟩ s'

end Fold

/-- The texts of the children behind the first are written with a space before each. -/
theorem foldlM_texts {f : ConId → Option String} {pieces : ConId → List Piece} {first : Option ConId}
    {l : List ConId} (hl : ∀ d ∈ l, first ≠ some d)
    (hf : ∀ d ∈ l, f d = some (Piece.write t (pieces d))) (buf : String) :
    l.foldlM (fun buf child => do
        let text ← f child
        return buf ++ (if first = some child then "" else " ") ++ text) buf
      = some (buf ++ Piece.write t (l.flatMap fun e => .space :: pieces e)) := by
  induction l generalizing buf with
  | nil => simp
  | cons d l ih =>
    have hd := hl d List.mem_cons_self
    simp only [List.foldlM_cons, hf d List.mem_cons_self, hd, if_false, Option.pure_def,
      Option.bind_eq_bind, Option.bind_some]
    have ih := ih (fun e he => hl e (List.mem_cons_of_mem d he))
      (fun e he => hf e (List.mem_cons_of_mem d he))
    simp only [Option.pure_def, Option.bind_eq_bind] at ih
    rw [ih]
    simp [Piece.text, String.append_assoc]

theorem foldlM_joined {f : ConId → Option String} {pieces : ConId → List Piece} {l : List ConId}
    (hl : l.Nodup) (hf : ∀ d ∈ l, f d = some (Piece.write t (pieces d))) (buf : String) :
    l.foldlM (fun buf child => do
        let text ← f child
        return buf ++ (if l.head? = some child then "" else " ") ++ text) buf
      = some (buf ++ Piece.write t (joined pieces l)) := by
  cases l with
  | nil => simp [joined]
  | cons d l =>
    obtain ⟨hd, -⟩ := List.nodup_cons.mp hl
    have hrest := foldlM_texts (t := t) (l := l) (f := f)
      (fun e he (heq : some d = some e) => hd (Option.some.inj heq ▸ he))
      fun e he => hf e (List.mem_cons_of_mem d he)
    rw [List.foldlM_cons, hf d List.mem_cons_self]
    refine (hrest _).trans ?_
    simp [joined, String.append_assoc]

/-! ### The pieces -/

section Joined

variable {f : ConId → List Piece} {l : List ConId}

theorem balanced_joined (h : ∀ d ∈ l, Brackets.Balanced Piece.side (f d)) :
    Brackets.Balanced Piece.side (joined f l) := by
  cases l with
  | nil => exact .nil
  | cons d l =>
    refine (h d List.mem_cons_self).append (.flatMap fun e he => ?_)
    exact (Brackets.Balanced.of_plain (l := [Piece.space]) (by simp [Piece.side])).append
      (h e (List.mem_cons_of_mem d he))

theorem filterMap_joined {g : ConId → List ConId} (h : ∀ d ∈ l, (f d).filterMap Piece.leaf? = g d) :
    (joined f l).filterMap Piece.leaf? = l.flatMap g := by
  cases l with
  | nil => rfl
  | cons d l =>
    have hl : ∀ e ∈ l, ((.space :: f e : List Piece)).filterMap Piece.leaf? = g e := fun e he =>
      (List.filterMap_cons_none rfl).trans (h e (List.mem_cons_of_mem d he))
    rw [joined, List.filterMap_append, h d List.mem_cons_self, List.flatMap_cons,
      List.filterMap_flatMap]
    exact congrArg _ (List.flatMap_congr hl)

/-- The text of the children is balanced if the texts of all of them are. -/
theorem balanced_write_joined
    (h : ∀ d ∈ l, Brackets.Balanced charSide (Piece.write t (f d)).toList) :
    Brackets.Balanced charSide (Piece.write t (joined f l)).toList := by
  have hspace : Brackets.Balanced charSide [' '] := .of_plain (by simp [charSide])
  have hrest : ∀ l : List ConId,
      (∀ d ∈ l, Brackets.Balanced charSide (Piece.write t (f d)).toList) →
      Brackets.Balanced charSide (Piece.write t (l.flatMap fun e => .space :: f e)).toList := by
    intro l h
    induction l with
    | nil => exact .nil
    | cons d l ih =>
      have hd := hspace.append (h d List.mem_cons_self)
      have hl := ih fun e he => h e (List.mem_cons_of_mem d he)
      simpa [Piece.text] using hd.append hl
  cases l with
  | nil => exact .nil
  | cons d l =>
    rw [joined, Piece.write_append, String.toList_append]
    exact (h d List.mem_cons_self).append (hrest l fun e he => h e (List.mem_cons_of_mem d he))

end Joined

/-- What is written around the children is a pair of brackets. -/
theorem balanced_write_enclosed {layout : Layout} {s : String} {ps : List Piece}
    (hs : layout.opening = some s) (h : Brackets.Balanced charSide (Piece.write t ps).toList) :
    Brackets.Balanced charSide (Piece.write t (.opening layout :: ps ++ [.closing])).toList := by
  have hwrite : Piece.write t (.opening layout :: ps ++ [.closing]) = s ++ Piece.write t ps ++ "]" := by
    simp [Piece.text, hs, String.append_assoc]
  -- every opening text is a letter and a bracket
  obtain ⟨x, hx, hxs⟩ : ∃ x, charSide x = .plain ∧ s.toList = [x, '['] := by
    cases layout <;> cases hs <;> exact ⟨_, by decide, rfl⟩
  rw [hwrite, String.toList_append, String.toList_append, hxs]
  have henclosed := h.enclose (a := '[') (b := ']') (by decide) (by decide)
  exact (Brackets.Balanced.of_plain (l := [x]) (by simpa using hx)).append henclosed

/-! ### The recursion -/

/-- The condition for one container and for its children. -/
theorem written_iff :
    t.Written c ↔ t.isLeaf c ∨
      (t.con c).layout ∈ [Layout.default, .splitv, .splith, .tabbed, .stacked]
        ∧ ∀ d ∈ (t.con c).nodesHead, t.Written d := by
  constructor
  · intro h
    by_cases hc : t.isLeaf c
    · exact .inl hc
    · exact .inr ⟨h c (.refl c) hc, fun d hd e he => h e ((Descent.Below.single hd).within.trans he)⟩
  · rintro (hc | ⟨hlayout, hchildren⟩) d hd hleaf
    · rcases Descent.within_iff.mp hd with rfl | hd
      · exact absurd hc hleaf
      · obtain ⟨e, he, -⟩ := Descent.below_iff_head.mp hd
        rw [isLeaf, List.isEmpty_iff] at hc
        simp [hc] at he
    · rcases Descent.within_iff.mp hd with rfl | hd
      · exact hlayout
      · obtain ⟨e, he, hed⟩ := Descent.below_iff_head.mp hd
        exact hchildren e he d hed hleaf

/-- The layouts of the condition are those with an opening text. -/
theorem opening_isSome {layout : Layout} :
    layout.opening.isSome ↔ layout ∈ [Layout.default, .splitv, .splith, .tabbed, .stacked] := by
  cases layout <;> decide

/-- What the recursions do with `k` levels, where that is enough. -/
structure Descends (t : Tree) (deco : ConId → Rect) (k : ℕ) (c : ConId) : Prop where
  minimumSize : t.Written c → (t.minimumSizeN deco k c).isSome
  pieces : t.Written c → ∃ ps, t.treeRepresentationN k c = some (Piece.write t ps)
    ∧ Brackets.Balanced Piece.side ps ∧ ps.filterMap Piece.leaf? = t.leavesN k c
    ∧ ((∀ d ∈ t.leavesN k c, Brackets.Balanced charSide (t.leafText d).toList) →
      Brackets.Balanced charSide (Piece.write t ps).toList)
  asserts : ¬ t.Written c → t.treeRepresentationN k c = none

theorem Descends.of_leaf (k : ℕ) (hc : t.isLeaf c) : t.Descends deco (k + 1) c where
  minimumSize _ := by simp [minimumSizeN, hc]
  pieces _ := by
    refine ⟨[.name c], by simp [treeRepresentationN, hc, Piece.text], .of_plain ?_, ?_, ?_⟩
    · simp [Piece.side]
    · simp [leavesN, hc, Piece.leaf?]
    · simp [leavesN, hc, Piece.text]
  asserts h := absurd (written_iff.mpr (.inl hc)) h

/-- One level of the text. -/
theorem treeRepresentationN_succ {k : ℕ} {s : String} {pieces : ConId → List Piece}
    (hc : ¬ t.isLeaf c) (hnodup : (t.con c).nodesHead.Nodup) (hs : (t.con c).layout.opening = some s)
    (hpieces : ∀ d ∈ (t.con c).nodesHead,
      t.treeRepresentationN k d = some (Piece.write t (pieces d))) :
    t.treeRepresentationN (k + 1) c = some (Piece.write t
      (.opening (t.con c).layout :: joined pieces (t.con c).nodesHead ++ [.closing])) := by
  rw [treeRepresentationN, if_neg hc, hs]
  simp only [Option.bind_eq_bind, Option.bind_some, Option.pure_def]
  have hfold := foldlM_joined (t := t) hnodup hpieces s
  simp only [Option.bind_eq_bind, Option.pure_def] at hfold
  rw [hfold]
  simp [Piece.text, hs, String.append_assoc]

/-- One level of the minimum size. -/
theorem isSome_minimumSizeN_succ {k : ℕ} (hc : ¬ t.isLeaf c)
    (hlayout : (t.con c).layout ∈ [Layout.default, .splitv, .splith, .tabbed, .stacked])
    (h : ∀ d ∈ (t.con c).nodesHead, (t.minimumSizeN deco k d).isSome) :
    (t.minimumSizeN deco (k + 1) c).isSome := by
  have hsplit : t.isSplit c := by
    rw [isSplit, if_neg hc]
    split <;> simp_all
  rw [minimumSizeN, if_neg hc, if_pos hsplit]
  split
  · -- a floating container asks its only child
    cases hnodes : (t.con c).nodesHead with
    | nil => simp [isLeaf, hnodes] at hc
    | cons d l => exact h d (by simp [hnodes])
  · split
    · rw [Option.isSome_map]
      apply isSome_foldlM
      intro d hd s
      rw [stackMinimum, Option.isSome_map]
      exact h d hd
    · apply isSome_foldlM
      intro d hd s
      rw [splitMinimum, Option.isSome_map]
      exact h d hd

theorem Descends.of_children {k : ℕ} (hc : ¬ t.isLeaf c) (hnodup : (t.con c).nodesHead.Nodup)
    (h : ∀ d ∈ (t.con c).nodesHead, t.Descends deco k d) : t.Descends deco (k + 1) c where
  minimumSize hw := by
    obtain ⟨hlayout, hchildren⟩ := (written_iff.mp hw).resolve_left hc
    exact isSome_minimumSizeN_succ hc hlayout fun d hd => (h d hd).minimumSize (hchildren d hd)
  pieces hw := by
    obtain ⟨hlayout, hchildren⟩ := (written_iff.mp hw).resolve_left hc
    obtain ⟨s, hs⟩ := Option.isSome_iff_exists.mp (opening_isSome.mpr hlayout)
    choose! pieces hwrite hbal hleaves htext using fun d hd => (h d hd).pieces (hchildren d hd)
    have hleavesN : t.leavesN (k + 1) c = (t.con c).nodesHead.flatMap (t.leavesN k) := by
      rw [leavesN, if_neg hc]
    refine ⟨_, treeRepresentationN_succ hc hnodup hs hwrite, ?_, ?_, fun hnames => ?_⟩
    · exact (balanced_joined hbal).enclose rfl rfl
    · have hjoined := filterMap_joined hleaves
      rw [hleavesN, ← hjoined, List.filterMap_append, List.filterMap_cons_none rfl,
        List.filterMap_cons_none rfl, List.filterMap_nil, List.append_nil]
    · refine balanced_write_enclosed hs (balanced_write_joined fun d hd => htext d hd fun e he => ?_)
      exact hnames e (hleavesN ▸ List.mem_flatMap.mpr ⟨d, hd, he⟩)
  asserts hw := by
    rw [treeRepresentationN, if_neg hc]
    cases hs : (t.con c).layout.opening with
    | none => rfl
    | some s =>
      -- the layout is known, so one of the children is to blame
      have hlayout := opening_isSome.mp (by rw [hs]; rfl)
      obtain ⟨d, hd, hnot⟩ : ∃ d ∈ (t.con c).nodesHead, ¬ t.Written d := by
        by_contra hall
        simp only [not_exists, not_and, not_not] at hall
        exact hw (written_iff.mpr (.inr ⟨hlayout, hall⟩))
      have hnone := (h d hd).asserts hnot
      simp only [Option.bind_eq_bind, Option.bind_some]
      rw [foldlM_eq_none ⟨d, hd, fun s => by simp [hnone]⟩]
      rfl

/-- With as many levels as there are addresses, the recursions get to the bottom. -/
theorem Rooted.descends (ht : Rooted t) (hc : c < t.nextCon) : t.Descends deco t.nextCon c := by
  refine ht.acyclic.fuel_induction ht.bounded (P := t.Descends deco) (fun k c h => ?_) hc
  by_cases hleaf : t.isLeaf c
  · exact .of_leaf k hleaf
  · exact .of_children hleaf (ht.nodupNodes c) fun d hd => h d (List.mem_append_left _ hd)

/-- **Every layout but the scrolling one is handled.** Both functions return, and the text is a
bracketed word that names the leaves in tree order, exactly if no container with children at or
below `c` has a layout that the text does not know. -/
theorem represented_iff (ht : Rooted t) (deco : ConId → Rect) (hc : t.Reach c) :
    t.Represented deco c ↔ t.Written c := by
  have hlt : c < t.nextCon := by
    rcases Descent.within_iff.mp hc with rfl | hc
    · exact ht.boundedRoot
    · obtain ⟨p, -, hp⟩ := Descent.below_iff_exists.mp hc
      exact ht.bounded p c hp
  have hdescends : t.Descends deco t.nextCon c := ht.descends hlt
  constructor
  · intro h
    by_contra hw
    obtain ⟨ps, hps, -⟩ := h.pieces
    rw [treeRepresentation, hdescends.asserts hw] at hps
    cases hps
  · intro hw
    obtain ⟨ps, hps, hbal, hleaves, htext⟩ := hdescends.pieces hw
    refine ⟨hdescends.minimumSize hw, ⟨ps, hps, hbal, hleaves⟩, fun s hs hnames => ?_⟩
    rw [treeRepresentation, hps] at hs
    cases hs
    exact htext hnames

/-! ### A tabbed container with a split one -/

/-- A tabbed container with a window and a container of the given layout, which has two windows. -/
def tabbedWith (layout : Layout) : Tree := ofList [
  { type := .root, nodesHead := [1], focusHead := [1] },
  { type := .output, layout := .output, parent := some 0, nodesHead := [2], focusHead := [2] },
  { layout := .splith, parent := some 1, nodesHead := [3], focusHead := [3] },
  { type := .workspace, layout := .splith, name := "1", fullscreenMode := .output, parent := some 2
    nodesHead := [4], focusHead := [4] },
  { layout := .tabbed, parent := some 3, nodesHead := [5, 6], focusHead := [6, 5] },
  { parent := some 4, window := some { id := 5, classInstance := some "xterm" } },
  { layout := layout, parent := some 4, nodesHead := [7, 8], focusHead := [7, 8] },
  { parent := some 6, window := some { id := 7, classInstance := some "emacs" } },
  { parent := some 6, window := some { id := 8 } }] (some 7)

example : (tabbedWith .splitv).treeRepresentation 4 = some "T[xterm V[emacs noinstance]]" := by
  decide +kernel

theorem reach_tabbedWith {layout : Layout} (ht : Rooted (tabbedWith layout)) :
    (tabbedWith layout).Reach 4 := by
  have h₁ := ht.sits_of_mem (reach_croot : (tabbedWith layout).Reach 0) (c := 1)
    (show 1 ∈ [1] ++ [] by simp)
  have h₂ := ht.sits_of_mem h₁.1 (c := 2) (show 2 ∈ [2] ++ [] by simp)
  have h₃ := ht.sits_of_mem h₂.1 (c := 3) (show 3 ∈ [3] ++ [] by simp)
  exact (ht.sits_of_mem h₃.1 (c := 4) (show 4 ∈ [4] ++ [] by simp)).1

theorem represented_tabbedSplit : (tabbedWith .splitv).Represented (fun _ => {}) 4 := by
  have ht : Rooted (tabbedWith .splitv) := rooted_ofList (by decide +kernel) (by decide +kernel)
  refine (represented_iff ht _ (reach_tabbedWith ht)).mpr ?_
  have hleaf : ∀ c ∈ [5, 7, 8], (tabbedWith .splitv).Written c := fun c hc =>
    written_iff.mpr (.inl (by revert c; decide +kernel))
  refine written_iff.mpr (.inr ⟨by decide +kernel, fun c hc => ?_⟩)
  rcases List.mem_cons.mp hc with rfl | hc
  · exact hleaf 5 (by simp)
  · obtain rfl := List.mem_singleton.mp hc
    refine written_iff.mpr (.inr ⟨by decide +kernel, fun d hd => hleaf d ?_⟩)
    exact List.mem_cons_of_mem 5 hd

/-- A scrolling container in a tabbed one. -/
theorem not_represented_tabbedScrolling :
    ¬ ∀ (t : Tree) (deco : ConId → Rect) (c : ConId), Rooted t → t.Reach c →
      (∀ d, (t.con d).type = .con → ¬ t.isLeaf d → (t.con d).layout ∈
        [Layout.splith, .splitv, .stacked, .tabbed, .scrolling]) → t.Represented deco c := by
  intro h
  have ht : Rooted (tabbedWith .scrolling) := rooted_ofList (by decide +kernel) (by decide +kernel)
  have hlayouts : ∀ d, ((tabbedWith .scrolling).con d).type = .con →
      ¬ (tabbedWith .scrolling).isLeaf d → ((tabbedWith .scrolling).con d).layout ∈
        [Layout.splith, .splitv, .stacked, .tabbed, .scrolling] := by
    have hlist : ∀ d < 9, ((tabbedWith .scrolling).con d).type = .con →
        ¬ (tabbedWith .scrolling).isLeaf d → ((tabbedWith .scrolling).con d).layout ∈
          [Layout.splith, .splitv, .stacked, .tabbed, .scrolling] := by decide +kernel
    intro d htype hleaf
    by_cases hd : d < 9
    · exact hlist d hd htype hleaf
    · refine absurd ?_ hleaf
      rw [isLeaf, tabbedWith, ofList]
      dsimp only
      rw [List.getD_eq_getElem?_getD, List.getElem?_eq_none (not_lt.mp hd)]
      rfl
  obtain ⟨ps, hps, -⟩ := (h _ (fun _ => {}) 4 ht (reach_tabbedWith ht) hlayouts).pieces
  have hnone : (tabbedWith .scrolling).treeRepresentation 4 = none := by decide +kernel
  rw [hnone] at hps
  cases hps

end Tree

end I3
