import I3Aiwr.Restart.Load

/-!
# Reading what was dumped

The texts that `dump_node` writes for keys and values are told apart by `strcasecmp`, so that the
callbacks read the same keys and values again. From this, what the callbacks do with each part of a dump
that is no container: it sets fields of the container that is read.

## Main definitions

* `Restart.Apart`: texts that the callbacks tell apart
* `Restart.Leads`: where the callbacks of a text lead
* `Restart.Sets`: a part of a dump that sets fields

## Main results

* `Restart.Key.ofText_text`, `Restart.ofText_text`: the texts are read back
* `Restart.sets_dumpRect`, `Restart.sets_dumpGaps`: rectangles and gaps are read back
-/

namespace I3

namespace Restart

/-! ### Texts -/

/-- No letter of the text is a capital. -/
def Lower (s : String) : Bool := s.toList.map Char.toLower = s.toList

theorem toLower_of_lower {s : String} (h : Lower s = true) : s.toLower = s := by
  apply String.toList_inj.mp
  rw [String.toLower, String.toList_map, of_decide_eq_true h]

theorem sameName_iff {s t : String} (hs : Lower s = true) (ht : Lower t = true) :
    sameName s t = true ↔ s = t := by
  rw [sameName, strcasecmp, toLower_of_lower hs, toLower_of_lower ht, decide_eq_true_iff,
    Std.LawfulEqCmp.compare_eq_iff_eq]

/-- The texts have no capitals, and no two of them are the same. -/
def Apart {α : Type*} (values : List α) (text : α → String) : Bool :=
  values.all (fun v => Lower (text v)) && decide (values.map text).Nodup

/-- **A value is read back** off its text. -/
theorem ofText_text {α : Type*} {values : List α} {text : α → String} (h : Apart values text = true)
    {v : α} (hv : v ∈ values) : ofText values text (text v) = some v := by
  obtain ⟨hlower, hnodup⟩ := Bool.and_eq_true_iff.mp h
  rw [List.all_eq_true] at hlower
  unfold ofText
  rw [List.find?_eq_some_iff_append]
  obtain ⟨pre, post, rfl⟩ := List.append_of_mem hv
  refine ⟨(sameName_iff (hlower v hv) (hlower v hv)).mpr rfl, pre, post, rfl, fun w hw => ?_⟩
  have hne : text v ≠ text w := by
    have hnodup := of_decide_eq_true hnodup
    rw [List.map_append, List.map_cons, List.nodup_append] at hnodup
    exact fun heq => hnodup.2.2 _ (List.mem_map_of_mem hw) _ List.mem_cons_self heq.symm
  have hw' : w ∈ pre ++ v :: post := List.mem_append_left _ hw
  rw [Bool.not_eq_true', Bool.eq_false_iff, Ne, sameName_iff (hlower v hv) (hlower w hw')]
  exact hne

theorem lower_of_apart {α : Type*} {values : List α} {text : α → String} (h : Apart values text = true)
    {v : α} (hv : v ∈ values) : Lower (text v) = true :=
  List.all_eq_true.mp (Bool.and_eq_true_iff.mp h).1 v hv

/-- The layouts that a workspace can be told to use. -/
def workspaceLayouts : List Layout := [.default, .stacked, .tabbed, .scrolling]

/-- **The texts of a dump**: those that the callbacks tell apart. One evaluation is for all of them. -/
theorem apart_texts :
    Apart Key.all Key.text = true ∧
    Apart [ConType.root, .output, .con, .floatingCon, .workspace, .dockarea] typeText = true ∧
    Apart [ScratchpadState.none, .fresh, .changed] scratchpadText = true ∧
    Apart [Layout.default, .stacked, .tabbed, .scrolling, .dockarea, .output, .splith, .splitv]
      layoutText = true ∧
    Apart [BorderStyle.none, .pixel, .normal] borderText = true ∧
    Apart [Floating.autoOff, .autoOn, .userOff, .userOn] floatingText = true ∧
    Lower "default" = true ∧ Lower "1pixel" = true := by
  decide +kernel

/-- Fewer texts are apart as well. -/
theorem Apart.sublist {α : Type*} {values fewer : List α} {text : α → String}
    (h : Apart values text = true) (hsub : fewer.Sublist values) : Apart fewer text = true := by
  obtain ⟨hlower, hnodup⟩ := Bool.and_eq_true_iff.mp h
  rw [List.all_eq_true] at hlower
  refine Bool.and_eq_true_iff.mpr ⟨List.all_eq_true.mpr fun v hv => hlower v (hsub.subset hv), ?_⟩
  exact decide_eq_true ((of_decide_eq_true hnodup).sublist (hsub.map text))

theorem apart_layouts {values : List Layout}
    (hsub : values.Sublist [.default, .stacked, .tabbed, .scrolling, .dockarea, .output, .splith, .splitv]) :
    Apart values layoutText = true := by
  obtain ⟨-, -, -, hlayout, -⟩ := apart_texts
  exact Apart.sublist hlayout hsub

theorem lower_layoutText (v : Layout) : Lower (layoutText v) = true :=
  lower_of_apart (apart_layouts (List.Sublist.refl _)) (by cases v <;> decide)

theorem lower_borderText (v : BorderStyle) : Lower (borderText v) = true :=
  lower_of_apart apart_texts.2.2.2.2.1 (by cases v <;> decide)

theorem Key.mem_all (k : Key) : k ∈ Key.all := by cases k <;> decide

/-- **A key is read back** off its text. -/
theorem Key.ofText_text (k : Key) : Key.ofText k.text = some k :=
  Restart.ofText_text apart_texts.1 k.mem_all

theorem typeOfText_text (v : ConType) : typeOfText (typeText v) = some v :=
  ofText_text apart_texts.2.1 (by cases v <;> decide)

theorem scratchpadOfText_text (v : ScratchpadState) :
    scratchpadOfText (scratchpadText v) = some v :=
  ofText_text apart_texts.2.2.1 (by cases v <;> decide)

theorem layoutOfText_text {v : Layout} (h : v ≠ .default) : layoutOfText (layoutText v) = some v :=
  ofText_text (apart_layouts (by decide)) (by cases v <;> first | exact absurd rfl h | decide)

theorem workspaceLayoutOfText_text {v : Layout} (h : v ∈ workspaceLayouts) :
    workspaceLayoutOfText (layoutText v) = some v :=
  ofText_text (apart_layouts (by decide)) h

theorem borderOfText_text (v : BorderStyle) : borderOfText (borderText v) = some v :=
  ofText_text apart_texts.2.2.2.2.1 (by cases v <;> decide)

theorem floatingOfText_text (v : Floating) : floatingOfText (floatingText v) = some v :=
  ofText_text apart_texts.2.2.2.2.2.1 (by cases v <;> decide)

theorem fullscreenOfNumber_number (v : FullscreenMode) :
    fullscreenOfNumber (fullscreenNumber v) = some v := by
  cases v <;> decide

/-- The split layout that a dump tells: that of the container, or else `L_SPLITH`. -/
def splitLayout : Layout → Layout
  | .splitv => .splitv
  | _ => .splith

theorem splitOfText_text (v : Layout) : splitOfText (splitText v) = some (splitLayout v) := by
  have hread {l : Layout} (hl : l ∈ [Layout.splith, .splitv]) : splitOfText (layoutText l) = some l :=
    ofText_text (apart_layouts (by decide)) hl
  cases v with
  | splitv => exact hread (l := .splitv) (by decide)
  | _ => exact hread (l := .splith) (by decide)

/-! ### Where the callbacks lead -/

variable {env : Env} {L L' L'' : Loader} {ts us : List Token}

/-- The callbacks of the text lead from the one state to the other. -/
def Leads (env : Env) (L : Loader) (ts : List Token) (L' : Loader) : Prop :=
  Loader.run env L ts = some L'

theorem Leads.nil (L : Loader) : Leads env L [] L := rfl

theorem Leads.append (h : Leads env L ts L') (h' : Leads env L' us L'') :
    Leads env L (ts ++ us) L'' := by
  unfold Leads Loader.run at *
  rw [List.foldlM_append, h]
  exact h'

theorem Leads.single {t : Token} (h : L.step env t = some L') : Leads env L [t] L' := by
  unfold Leads Loader.run
  rw [List.foldlM_cons, h]
  rfl

theorem Leads.cons {t : Token} (h : L.step env t = some L') (h' : Leads env L' us L'') :
    Leads env L (t :: us) L'' :=
  (Leads.single h).append h'

/-- A key whose value alone is of interest. -/
def Key.plain : Key → Bool
  | .swallows | .gaps | .rect | .actualDecoRect | .decoRect | .windowRect | .geometry | .focus | .marks =>
    false
  | _ => true

/-- The state after a key. -/
def Loader.keyed (L : Loader) (k : Key) : Loader :=
  let L := { L with lastKey := some k }
  match k with
  | .swallows => { L with parsing := { L.parsing with swallows := true } }
  | .gaps => { L with parsing := { L.parsing with gaps := true } }
  | .rect => { L with parsing := { L.parsing with rect := true } }
  | .actualDecoRect => { L with parsing := { L.parsing with actualDecoRect := true } }
  | .decoRect => { L with parsing := { L.parsing with decoRect := true } }
  | .windowRect => { L with parsing := { L.parsing with windowRect := true } }
  | .geometry => { L with parsing := { L.parsing with geometry := true } }
  | .focus => { L with parsing := { L.parsing with focus := true } }
  | .marks => { L with parsing := { L.parsing with marks := true }, marks := [] }
  | _ => L

theorem step_text (k : Key) : L.step env (.key k.text) = some (L.keyed k) := by
  unfold Loader.step Loader.jsonKey
  dsimp only
  rw [Key.ofText_text]
  cases k <;> rfl

theorem step_key {k : Key} (h : k.plain = true) :
    L.step env (.key k.text) = some { L with lastKey := some k } := by
  rw [step_text]
  cases k <;> first | rfl | cases h

/-- The state with other fields of the container, after the value of `k`. -/
def Loader.put (L : Loader) (k : Key) (f : Fields → Fields) : Loader :=
  { L.setCon f with lastKey := some k }

@[simp] theorem Loader.put_parsing (k : Key) (f : Fields → Fields) :
    (L.put k f).parsing = L.parsing := rfl

theorem Loader.put_put (k k' : Key) (f g : Fields → Fields) :
    (L.put k f).put k' g = L.put k' (g ∘ f) := by
  obtain ⟨node, _⟩ := L
  cases node
  rfl

/-- A part of a dump that sets fields of the container that is read, and leaves `k` as the last key. The
flags are `p`, before and after. -/
def Sets (env : Env) (p : Parsing) (ts : List Token) (k : Key) (f : Fields → Fields) : Prop :=
  ∀ L : Loader, L.parsing = p → Leads env L ts (L.put k f)

variable {p : Parsing}

theorem Sets.append {k k' : Key} {f g : Fields → Fields} (h : Sets env p ts k f)
    (h' : Sets env p us k' g) : Sets env p (ts ++ us) k' (g ∘ f) := by
  intro L hL
  rw [← Loader.put_put]
  exact (h L hL).append (h' _ hL)

theorem setCon_id (n : Node) : n.setCon id = n := by
  cases n
  rfl

/-- A string that is the value of a key. -/
theorem sets_string {k : Key} (s : String) (hk : k.plain = true)
    (hmark : k ≠ .mark ∧ k ≠ .previousWorkspaceName) :
    Sets env {} (k.with (.string s)) k (Loader.fieldString (some k) s) := by
  intro L hL
  refine .cons (step_key hk) (.single ?_)
  obtain ⟨node, parents, lastKey, parsing, swallowIsEmpty, marks⟩ := L
  obtain rfl : parsing = {} := hL
  cases k <;> first | rfl | exact absurd rfl hmark.1 | exact absurd rfl hmark.2

/-- A number that is the value of a key. -/
theorem sets_integer {k : Key} (n : ℤ) (hk : k.plain = true) (hswallows : p.swallows = false)
    (hfocus : p.focus = false) :
    Sets env p (k.with (.integer n)) k
      fun con => Loader.mapInt p (some k) n (Loader.fieldInt p (some k) n con) := by
  intro L hL
  subst hL
  refine .cons (step_key hk) (.single ?_)
  unfold Loader.step Loader.jsonInt
  dsimp only [Loader.setCon]
  rw [hfocus, if_neg Bool.false_ne_true]
  dsimp only
  rw [hswallows, if_neg Bool.false_ne_true]
  rfl

/-- A truth value that sets nothing. -/
theorem sets_bool {k : Key} (b : Bool) (hk : k.plain = true) (hne : k ≠ .focused ∧ k ≠ .sticky) :
    Sets env {} (k.with (.bool b)) k id := by
  intro L hL
  refine .cons (step_key hk) (.single ?_)
  obtain ⟨⟨con, nodes, floatingNodes, focus⟩, parents, lastKey, parsing, swallowIsEmpty, marks⟩ := L
  obtain rfl : parsing = {} := hL
  cases k <;> first | rfl | exact absurd rfl hne.1 | exact absurd rfl hne.2

theorem sets_sticky (b : Bool) :
    Sets env {} (Key.sticky.with (.bool b)) .sticky fun con => { con with sticky := b } := by
  intro L hL
  refine .cons (step_key rfl) (.single ?_)
  obtain ⟨node, parents, lastKey, parsing, swallowIsEmpty, marks⟩ := L
  obtain rfl : parsing = {} := hL
  rfl

/-- `null` sets nothing. -/
theorem sets_null {k : Key} (hk : k.plain = true) : Sets env {} (k.with .null) k id := by
  intro L hL
  refine .cons (step_key hk) (.single ?_)
  change some _ = some _
  rw [Loader.put, Loader.setCon, setCon_id]

/-- A share. -/
theorem sets_percent (q : ℚ) : Sets env {} (Key.percent.with (.double q)) .percent
    fun con => { con with percent := q } := by
  intro L hL
  exact .cons (step_key rfl) (.single rfl)

/-! ### Numbers in their ranges -/

/-- The number is one of an `int`. -/
def Int32 (n : ℤ) : Prop := -2 ^ 31 ≤ n ∧ n < 2 ^ 31

instance (n : ℤ) : Decidable (Int32 n) := inferInstanceAs (Decidable (_ ∧ _))

theorem int32_eq {n : ℤ} (h : Int32 n) : int32 n = n := by
  obtain ⟨hlow, hhigh⟩ := h
  unfold int32
  apply Int.bmod_eq_of_le <;> omega

theorem u32_natCast {n : ℕ} (h : n < 2 ^ 32) : u32 n = n := by
  unfold u32
  omega

/-- The numbers of a rectangle are in their ranges. -/
@[mk_iff]
structure FitsRect (r : Rect) : Prop where
  x : Int32 r.x
  y : Int32 r.y
  width : r.width < 2 ^ 32
  height : r.height < 2 ^ 32

/-- The numbers of the gaps are in their ranges. -/
@[mk_iff]
structure FitsGaps (g : Configuration.Gaps) : Prop where
  inner : Int32 g.inner
  top : Int32 g.top
  right : Int32 g.right
  bottom : Int32 g.bottom
  left : Int32 g.left

instance (r : Rect) : Decidable (FitsRect r) := decidable_of_iff' _ (fitsRect_iff r)

instance (g : Configuration.Gaps) : Decidable (FitsGaps g) := decidable_of_iff' _ (fitsGaps_iff g)

/-! ### Maps -/

/-- The end of a map of the container. -/
theorem leads_endMap (h : L.parsing.inMap = true) (hswallows : L.parsing.swallows = false)
    (hfocus : L.parsing.focus = false) (hmarks : L.parsing.marks = false) :
    Leads env L [.endMap] { L with parsing := {} } := by
  refine .single ?_
  obtain ⟨node, parents, lastKey, ⟨_, _, _, _, _, _, _, _, _⟩, swallowIsEmpty, marks⟩ := L
  dsimp only at hswallows hfocus hmarks
  subst hswallows hfocus hmarks
  unfold Loader.step Loader.jsonEndMap
  dsimp only
  rw [if_neg (fun hne => hne.2 h)]
  rfl

/-- A map of the container sets the fields that are set in it. -/
theorem sets_map {k k' : Key} {f : Fields → Fields}
    (hkey : ∀ L : Loader, L.parsing = {} → L.keyed k = { L with lastKey := some k, parsing := p })
    (hp : p.inMap = true) (hswallows : p.swallows = false) (hfocus : p.focus = false)
    (hmarks : p.marks = false) (h : Sets env p ts k' f) :
    Sets env {} (.key k.text :: .startMap :: (ts ++ [.endMap])) k' f := by
  intro L hL
  have hstart : Loader.step env (L.keyed k) .startMap
      = some { L with lastKey := some k, parsing := p } := by
    rw [hkey L hL]
    unfold Loader.step Loader.jsonStartMap
    dsimp only
    rw [hswallows, if_neg Bool.false_ne_true, if_pos hp]
  refine .cons (step_text k) (.cons hstart ?_)
  refine (h _ rfl).append ?_
  have hend : Leads env (Loader.put { L with lastKey := some k, parsing := p } k' f) [.endMap]
      { Loader.put { L with lastKey := some k, parsing := p } k' f with parsing := {} } :=
    leads_endMap hp hswallows hfocus hmarks
  have heq : { Loader.put { L with lastKey := some k, parsing := p } k' f with parsing := {} }
      = L.put k' f := by
    rw [← hL]
    rfl
  rwa [heq] at hend

/-- The rectangle that is read off a map. -/
def readRect (r : Rect) : Rect := ⟨int32 r.x, int32 r.y, u32 r.width, u32 r.height⟩

theorem readRect_eq {r : Rect} (h : FitsRect r) : readRect r = r := by
  rw [readRect, int32_eq h.x, int32_eq h.y, u32_natCast h.width, u32_natCast h.height]

theorem dumpRect_eq (k : Key) (r : Rect) : dumpRect k r = .key k.text :: .startMap ::
    (Key.x.with (.integer r.x) ++ Key.y.with (.integer r.y) ++ Key.width.with (.integer r.width)
      ++ Key.height.with (.integer r.height) ++ [.endMap]) := by
  simp only [dumpRect, List.append_assoc, List.cons_append, List.nil_append]

/-- A rectangle is read off its map into the part of the fields that `on` changes. -/
theorem sets_dumpRect_of {k : Key} (r : Rect)
    (hkey : ∀ L : Loader, L.parsing = {} → L.keyed k = { L with lastKey := some k, parsing := p })
    (hp : p.inMap = true) (hswallows : p.swallows = false) (hfocus : p.focus = false)
    (hmarks : p.marks = false) (on : (Rect → Rect) → Fields → Fields)
    (hcomp : ∀ f g, on f ∘ on g = on (f ∘ g))
    (hon : ∀ k' ∈ [Key.x, .y, .width, .height], ∀ n,
      (fun con => Loader.mapInt p (some k') n (Loader.fieldInt p (some k') n con))
        = on (Loader.rectInt (some k') n)) :
    Sets env {} (dumpRect k r) .height (on fun _ => readRect r) := by
  have hnumber (k' : Key) (n : ℤ) (hk' : k' ∈ [Key.x, .y, .width, .height]) (hplain : k'.plain = true) :
      Sets env p (k'.with (.integer n)) k' (on (Loader.rectInt (some k') n)) := by
    rw [← hon k' hk' n]
    exact sets_integer n hplain hswallows hfocus
  have hall := (((hnumber .x r.x (by decide) rfl).append
    (hnumber .y r.y (by decide) rfl)).append
    (hnumber .width r.width (by decide) rfl)).append
    (hnumber .height r.height (by decide) rfl)
  rw [hcomp, hcomp, hcomp] at hall
  rw [dumpRect_eq]
  exact sets_map hkey hp hswallows hfocus hmarks hall

/-- The keys of a rectangle, each with what is to be shown of it. -/
theorem forall_rectKey {P : Key → Prop} (hx : P .x) (hy : P .y) (hwidth : P .width)
    (hheight : P .height) : ∀ k ∈ [Key.x, .y, .width, .height], P k := by
  intro k hk
  simp only [List.mem_cons, List.not_mem_nil, or_false] at hk
  rcases hk with rfl | rfl | rfl | rfl
  · exact hx
  · exact hy
  · exact hwidth
  · exact hheight

theorem sets_dumpRect {r : Rect} (h : FitsRect r) :
    Sets env {} (dumpRect .rect r) .height fun con => { con with rect := r } := by
  have hsets : Sets env {} (dumpRect .rect r) _ _ := sets_dumpRect_of (p := { rect := true }) r
    (fun L hL => by rw [Loader.keyed, hL]) rfl rfl rfl rfl
    (fun f con => { con with rect := f con.rect }) (fun _ _ => rfl)
    (forall_rectKey (fun _ => rfl) (fun _ => rfl) (fun _ => rfl) fun _ => rfl)
  rwa [readRect_eq h] at hsets

theorem sets_dumpWindowRect {r : Rect} (h : FitsRect r) :
    Sets env {} (dumpRect .windowRect r) .height fun con => { con with windowRect := r } := by
  have hsets : Sets env {} (dumpRect .windowRect r) _ _ := sets_dumpRect_of (p := { windowRect := true }) r
    (fun L hL => by rw [Loader.keyed, hL]) rfl rfl rfl rfl
    (fun f con => { con with windowRect := f con.windowRect }) (fun _ _ => rfl)
    (forall_rectKey (fun _ => rfl) (fun _ => rfl) (fun _ => rfl) fun _ => rfl)
  rwa [readRect_eq h] at hsets

theorem sets_dumpGeometry {r : Rect} (h : FitsRect r) :
    Sets env {} (dumpRect .geometry r) .height fun con => { con with geometry := r } := by
  have hsets : Sets env {} (dumpRect .geometry r) _ _ := sets_dumpRect_of (p := { geometry := true }) r
    (fun L hL => by rw [Loader.keyed, hL]) rfl rfl rfl rfl
    (fun f con => { con with geometry := f con.geometry }) (fun _ _ => rfl)
    (forall_rectKey (fun _ => rfl) (fun _ => rfl) (fun _ => rfl) fun _ => rfl)
  rwa [readRect_eq h] at hsets

/-- The rectangles of the decoration set nothing. -/
theorem sets_dumpDecoRect (parent con : Fields) (nodes : List Node) :
    Sets env {} (dumpDecoRect parent con nodes) .height id := by
  have hdeco (r : Rect) : Sets env {} (dumpRect .decoRect r) .height id :=
    sets_dumpRect_of (p := { decoRect := true }) r (fun L hL => by rw [Loader.keyed, hL]) rfl rfl rfl
      rfl (fun _ => id) (fun _ _ => rfl)
      (forall_rectKey (fun _ => rfl) (fun _ => rfl) (fun _ => rfl) fun _ => rfl)
  have hactual (r : Rect) : Sets env {} (dumpRect .actualDecoRect r) .height id :=
    sets_dumpRect_of (p := { actualDecoRect := true }) r (fun L hL => by rw [Loader.keyed, hL]) rfl rfl
      rfl rfl (fun _ => id) (fun _ _ => rfl)
      (forall_rectKey (fun _ => rfl) (fun _ => rfl) (fun _ => rfl) fun _ => rfl)
  unfold dumpDecoRect
  split
  · exact (hdeco _).append (hactual _)
  · exact hdeco _

/-- The gaps that are read off a map. -/
def readGaps (g : Configuration.Gaps) : Configuration.Gaps :=
  ⟨int32 g.inner, int32 g.top, int32 g.right, int32 g.bottom, int32 g.left⟩

theorem readGaps_eq {g : Configuration.Gaps} (h : FitsGaps g) : readGaps g = g := by
  rw [readGaps, int32_eq h.inner, int32_eq h.top, int32_eq h.right, int32_eq h.bottom, int32_eq h.left]

theorem dumpGaps_eq (k : Key) (g : Configuration.Gaps) : dumpGaps k g = .key k.text :: .startMap ::
    (Key.inner.with (.integer g.inner) ++ Key.outer.with (.integer g.top)
      ++ Key.top.with (.integer g.top) ++ Key.right.with (.integer g.right)
      ++ Key.bottom.with (.integer g.bottom) ++ Key.left.with (.integer g.left) ++ [.endMap]) := by
  simp only [dumpGaps, List.append_assoc, List.cons_append, List.nil_append]

theorem sets_dumpGaps {g : Configuration.Gaps} (h : FitsGaps g) :
    Sets env {} (dumpGaps .gaps g) .left fun con => { con with gaps := g } := by
  let on (f : Configuration.Gaps → Configuration.Gaps) (con : Fields) : Fields :=
    { con with gaps := f con.gaps }
  have hcomp (f g : Configuration.Gaps → Configuration.Gaps) : on f ∘ on g = on (f ∘ g) := rfl
  have hgap {k : Key} (n : ℤ) (hk : k.plain = true)
      (hon : (fun con => Loader.mapInt { gaps := true } (some k) n
        (Loader.fieldInt { gaps := true } (some k) n con)) = on (Loader.gapsInt (some k) n)) :
      Sets env { gaps := true } (k.with (.integer n)) k (on (Loader.gapsInt (some k) n)) := by
    rw [← hon]
    exact sets_integer n hk rfl rfl
  have hall := (((((hgap (k := .inner) g.inner rfl rfl).append (hgap (k := .outer) g.top rfl rfl)).append
    (hgap (k := .top) g.top rfl rfl)).append (hgap (k := .right) g.right rfl rfl)).append
    (hgap (k := .bottom) g.bottom rfl rfl)).append (hgap (k := .left) g.left rfl rfl)
  rw [hcomp, hcomp, hcomp, hcomp, hcomp] at hall
  have hsets : Sets env {} (dumpGaps .gaps g) .left (on fun _ => readGaps g) := by
    rw [dumpGaps_eq]
    exact sets_map (fun L hL => by rw [Loader.keyed, hL]) rfl rfl rfl rfl hall
  rwa [readGaps_eq h] at hsets

end Restart

end I3
