import I3Aiwr.X.Icons

/-!
# The choice of an icon

Where the icons of `_NET_WM_ICON` are well formed and square, `window_update_icon` does what its comment
says: it takes the one of the preferred size, else the smallest one that is at least as large, else the
largest one. The order of the icons does not matter, though the loop keeps one at a time and ends early.

## Main definitions

* `Icon`, `encode`: square icons, and the property they make
* `Best`: the size to choose

## Main results

* `Best.step`: one more size
* `exists_scan_encode`: the loop chooses an icon of the best size
-/

namespace I3

namespace Icons

/-- A square icon. -/
structure Icon where
  size : ℕ
  pixels : List UInt32
  pos : 0 < size
  lt : size < 2 ^ 32
  complete : pixels.length = size * size

/-- The words of an icon: its width, its height and its pixels. -/
def Icon.words (i : Icon) : List UInt32 := UInt32.ofNat i.size :: UInt32.ofNat i.size :: i.pixels

/-- The property with the icons. -/
def encode (icons : List Icon) : List UInt32 := icons.flatMap Icon.words

/-- **The size to choose**: the preferred one, else the smallest one above it, else the largest one. -/
structure Best (prefSize : ℕ) (sizes : List ℕ) (size : ℕ) : Prop where
  mem : size ∈ sizes
  preferred : prefSize ∈ sizes → size = prefSize
  smallest : (∃ t ∈ sizes, prefSize ≤ t) → prefSize ≤ size ∧ ∀ t ∈ sizes, prefSize ≤ t → size ≤ t
  largest : (∀ t ∈ sizes, t < prefSize) → ∀ t ∈ sizes, t ≤ size

variable {prefSize size size' : ℕ} {sizes sizes' : List ℕ}

/-- The size to choose, by whether it is large enough. -/
theorem best_iff : Best prefSize sizes size ↔ size ∈ sizes
    ∧ ((prefSize ≤ size ∧ ∀ t ∈ sizes, prefSize ≤ t → size ≤ t)
      ∨ (size < prefSize ∧ ∀ t ∈ sizes, t ≤ size)) := by
  constructor
  · intro h
    refine ⟨h.mem, ?_⟩
    by_cases hex : ∃ t ∈ sizes, prefSize ≤ t
    · exact Or.inl (h.smallest hex)
    · have hall : ∀ t ∈ sizes, t < prefSize := fun t ht => not_le.mp fun hle => hex ⟨t, ht, hle⟩
      exact Or.inr ⟨hall size h.mem, h.largest hall⟩
  · rintro ⟨hmem, ⟨hpref, hmin⟩ | ⟨hpref, hmax⟩⟩
    · refine ⟨hmem, fun hp => le_antisymm (hmin _ hp le_rfl) hpref, fun _ => ⟨hpref, hmin⟩,
        fun hall => ?_⟩
      have := hall size hmem
      omega
    · refine ⟨hmem, fun hp => ?_, ?_, fun _ => hmax⟩
      · have := hmax _ hp
        omega
      · rintro ⟨t, ht, hle⟩
        have := hmax t ht
        omega

/-- There is one such size, in whatever order they are. -/
theorem Best.unique (hperm : ∀ t, t ∈ sizes ↔ t ∈ sizes') (h : Best prefSize sizes size)
    (h' : Best prefSize sizes' size') : size = size' := by
  obtain ⟨hmem, hcases⟩ := best_iff.mp h
  obtain ⟨hmem', hcases'⟩ := best_iff.mp h'
  rw [hperm] at hmem
  rw [← hperm] at hmem'
  rcases hcases with ⟨hpref, hmin⟩ | ⟨hpref, hmax⟩
  · rcases hcases' with ⟨hpref', hmin'⟩ | ⟨hpref', hmax'⟩
    · exact le_antisymm (hmin _ hmem' hpref') (hmin' _ hmem hpref)
    · have := hmax' _ hmem
      omega
  · rcases hcases' with ⟨hpref', hmin'⟩ | ⟨hpref', hmax'⟩
    · have := hmax _ hmem'
      omega
    · exact le_antisymm (hmax' _ hmem) (hmax _ hmem')

/-- The condition of the loop, for squares. -/
theorem suits_square (prefSize : ℕ) {x y : Header} {words : List UInt32} (hx : x.Sound words)
    (hxsq : x.height = x.width) (hysq : y.height = y.width) :
    Suits prefSize x.chosen y.width y.height ↔
      (prefSize ≤ y.width ∧ (y.width < x.width ∨ x.width < prefSize))
        ∨ (y.width < prefSize ∧ x.width < prefSize ∧ x.width < y.width) := by
  have hlen : curLen x.width x.height ≠ 0 := by
    rw [curLen_eq hx.width.2 hx.height.2]
    exact (Nat.mul_pos hx.width.1 hx.height.1).ne'
  simp only [Suits, Header.chosen, hlen, false_or]
  omega

/-- The second of two sizes is the better one. -/
def Better (prefSize size size' : ℕ) : Prop :=
  (prefSize ≤ size' ∧ (size' < size ∨ size < prefSize))
    ∨ (size' < prefSize ∧ size < prefSize ∧ size < size')

/-- **One more size.** The better one of the two is the best of all. -/
theorem Best.step (h : Best prefSize sizes size) :
    (Better prefSize size size' → Best prefSize (sizes ++ [size']) size')
      ∧ (¬ Better prefSize size size' → Best prefSize (sizes ++ [size']) size) := by
  obtain ⟨hmem, hcases⟩ := best_iff.mp h
  unfold Better
  constructor
  · intro hbetter
    refine best_iff.mpr ⟨by simp, ?_⟩
    by_cases hpref : prefSize ≤ size'
    · refine Or.inl ⟨hpref, fun t ht hle => ?_⟩
      rcases List.mem_append.mp ht with ht | ht
      · rcases hcases with ⟨hlarge, hmin⟩ | ⟨hsmall, hmax⟩
        · have := hmin t ht hle
          omega
        · have := hmax t ht
          omega
      · exact (List.mem_singleton.mp ht).ge
    · refine Or.inr ⟨not_le.mp hpref, fun t ht => ?_⟩
      rcases List.mem_append.mp ht with ht | ht
      · rcases hcases with ⟨hle, -⟩ | ⟨-, hmax⟩
        · omega
        · have := hmax t ht
          omega
      · exact (List.mem_singleton.mp ht).le
  · intro hworse
    refine best_iff.mpr ⟨by simp [hmem], ?_⟩
    rcases hcases with ⟨hpref, hmin⟩ | ⟨hpref, hmax⟩
    · refine Or.inl ⟨hpref, fun t ht hle => ?_⟩
      rcases List.mem_append.mp ht with ht | ht
      · exact hmin t ht hle
      · have := List.mem_singleton.mp ht
        omega
    · refine Or.inr ⟨hpref, fun t ht => ?_⟩
      rcases List.mem_append.mp ht with ht | ht
      · exact hmax t ht
      · have := List.mem_singleton.mp ht
        omega

/-! ### The icons that are met -/

/-- The icons from a place on, to the first one of the preferred size. -/
def headers (prefSize : ℕ) : ℕ → List Icon → List Header
  | _, [] => []
  | place, i :: icons =>
    ⟨place, i.size, i.size⟩ :: if i.size = prefSize then [] else
      headers prefSize (place + i.words.length) icons

theorem Icon.length_words (i : Icon) : i.words.length = i.size * i.size + 2 := by
  simp [Icon.words, i.complete]

@[simp] theorem encode_cons (i : Icon) (icons : List Icon) :
    encode (i :: icons) = i.words ++ encode icons := rfl

theorem encode_append (icons icons' : List Icon) :
    encode (icons ++ icons') = encode icons ++ encode icons' := List.flatMap_append

variable {words : List UInt32} {place fuel : ℕ} {icons : List Icon}

/-- An icon of the property is met. -/
theorem header_encode {i : Icon} (hwords : words.drop place = encode (i :: icons))
    (hshort : 4 * (encode (i :: icons)).length < 2 ^ 32) :
    header words place (4 * (encode (i :: icons)).length) = some ⟨place, i.size, i.size⟩
      ∧ expectedLen i.size i.size = 4 * i.words.length := by
  have hsize : 0 < i.size * i.size := Nat.mul_pos i.pos i.pos
  have hnat : (UInt32.ofNat i.size).toNat = i.size := UInt32.toNat_ofNat_of_lt i.lt
  have hne : UInt32.ofNat i.size ≠ 0 := by
    intro h0
    have := congrArg UInt32.toNat h0
    rw [hnat] at this
    exact i.pos.ne' this
  have hwidth : words[place]? = some (UInt32.ofNat i.size) := by
    rw [← Nat.add_zero place, ← List.getElem?_drop, hwords]
    rfl
  have hheight : words[place + 1]? = some (UInt32.ofNat i.size) := by
    rw [← List.getElem?_drop, hwords]
    rfl
  have hlen : (encode (i :: icons)).length = i.size * i.size + 2 + (encode icons).length := by
    rw [encode_cons, List.length_append, i.length_words]
  rw [hlen] at hshort
  have hexpected : expectedLen i.size i.size = 4 * i.words.length := by
    rw [expectedLen_eq i.lt i.lt, i.length_words, Nat.mod_eq_of_lt (by omega), Nat.mul_comm]
  refine ⟨?_, hexpected⟩
  rw [header, if_pos (by omega), hwidth, hheight]
  dsimp only
  rw [hnat, if_pos ⟨hne, hne, by rw [hexpected, i.length_words]; omega⟩]

/-- What is met are the icons of the property. -/
theorem met_encode (hwords : words.drop place = encode icons)
    (hshort : 4 * (encode icons).length < 2 ^ 32) (hfuel : (encode icons).length ≤ fuel) :
    met words prefSize fuel place (4 * (encode icons).length) = headers prefSize place icons := by
  induction icons generalizing place fuel with
  | nil =>
    cases fuel with
    | zero => rfl
    | succ fuel => rw [met, header, if_neg (by simp [encode])]; rfl
  | cons i icons ih =>
    have hlen : (encode (i :: icons)).length = i.words.length + (encode icons).length := by
      rw [encode_cons, List.length_append]
    have hwordsLen := i.length_words
    obtain ⟨hheader, hexpected⟩ := header_encode hwords hshort
    cases fuel with
    | zero => omega
    | succ fuel =>
      have hrest : words.drop (place + i.words.length) = encode icons := by
        rw [← List.drop_drop, hwords, encode_cons, List.drop_left]
      rw [met, hheader, headers]
      dsimp only
      rw [hexpected, hlen, Nat.mul_div_cancel_left _ (by omega), Nat.mul_add, Nat.add_sub_cancel_left,
        ih hrest (by omega) (by omega)]
      simp only [and_self]

/-! ### The choice -/

theorem sound_headers (hwords : words.drop place = encode icons)
    (hin : Inside words place (4 * (encode icons).length)) :
    ∀ x ∈ headers prefSize place icons, x.Sound words := by
  rw [← met_encode hwords hin.2 le_rfl]
  exact fun x hx => sound_of_mem_met hin hx

/-- The headers are those of icons, at their places. -/
theorem exists_of_mem_headers {x : Header} (hx : x ∈ headers prefSize place icons) :
    ∃ pre i post, icons = pre ++ i :: post
      ∧ x = ⟨place + (encode pre).length, i.size, i.size⟩ := by
  induction icons generalizing place with
  | nil => cases hx
  | cons i icons ih =>
    rcases List.mem_cons.mp hx with rfl | hx
    · exact ⟨[], i, icons, rfl, rfl⟩
    · split at hx
      · cases hx
      · obtain ⟨pre, j, post, rfl, rfl⟩ := ih hx
        exact ⟨i :: pre, j, post, rfl, by simp [Nat.add_assoc]⟩

/-- Where the loop does not end early, all icons are met; where it does, the last one is of the preferred
size. -/
theorem mem_headers_or (prefSize place : ℕ) (icons : List Icon) :
    (∀ i ∈ icons, i.size ∈ (headers prefSize place icons).map Header.width)
    ∨ prefSize ∈ (headers prefSize place icons).map Header.width := by
  induction icons generalizing place with
  | nil => exact Or.inl nofun
  | cons i icons ih =>
    unfold headers
    by_cases hexact : i.size = prefSize
    · exact Or.inr (by simp [hexact])
    · rw [if_neg hexact]
      rcases ih (place + i.words.length) with hall | hpref
      · refine Or.inl fun j hj => ?_
        rcases List.mem_cons.mp hj with rfl | hj
        · simp
        · exact List.mem_cons_of_mem _ (hall j hj)
      · exact Or.inr (List.mem_cons_of_mem _ hpref)

/-- The best of the icons that are met is the best of all. -/
theorem Best.of_headers (h : Best prefSize ((headers prefSize place icons).map Header.width) size) :
    Best prefSize (icons.map Icon.size) size := by
  have hmem : size ∈ icons.map Icon.size := by
    obtain ⟨x, hx, rfl⟩ := List.mem_map.mp h.mem
    obtain ⟨pre, i, post, rfl, rfl⟩ := exists_of_mem_headers hx
    simp
  rcases mem_headers_or prefSize place icons with hall | hpref
  · have hsizes : ∀ t ∈ icons.map Icon.size,
        t ∈ (headers prefSize place icons).map Header.width := by
      intro t ht
      obtain ⟨i, hi, rfl⟩ := List.mem_map.mp ht
      exact hall i hi
    obtain ⟨-, hcases⟩ := best_iff.mp h
    refine best_iff.mpr ⟨hmem, hcases.imp ?_ ?_⟩
    · exact fun hmin => ⟨hmin.1, fun t ht => hmin.2 t (hsizes t ht)⟩
    · exact fun hmax => ⟨hmax.1, fun t ht => hmax.2 t (hsizes t ht)⟩
  · have heq := h.preferred hpref
    subst heq
    exact best_iff.mpr ⟨hmem, Or.inl ⟨le_rfl, fun t _ hle => hle⟩⟩

/-- The loop keeps the best of the icons that are met. -/
theorem best_foldl (prefSize : ℕ) {x : Header} {xs : List Header} (hsound : ∀ y ∈ x :: xs, y.Sound words)
    (hsq : ∀ y ∈ x :: xs, y.height = y.width) :
    xs.foldl (pick prefSize) x ∈ x :: xs
      ∧ Best prefSize ((x :: xs).map Header.width) (xs.foldl (pick prefSize) x).width := by
  have hall := foldl_pick prefSize x xs
    (P := fun ys z => z ∈ ys ∧ (z.Sound words ∧ z.height = z.width)
      ∧ Best prefSize (ys.map Header.width) z.width) ?_ ?_
  · exact ⟨hall.1, hall.2.2⟩
  · refine ⟨by simp, ⟨hsound x (by simp), hsq x (by simp)⟩, best_iff.mpr ⟨by simp, ?_⟩⟩
    rcases le_or_gt prefSize x.width with hle | hlt
    · exact Or.inl ⟨hle, by simp⟩
    · exact Or.inr ⟨hlt, by simp⟩
  · rintro ys y hy z ⟨hz, ⟨hzsound, hzsq⟩, hbest⟩
    have hysound := hsound y (List.mem_cons_of_mem _ hy)
    have hysq := hsq y (List.mem_cons_of_mem _ hy)
    have hmap : (x :: (ys ++ [y])).map Header.width = (x :: ys).map Header.width ++ [y.width] := by
      simp
    have hmem : ∀ w ∈ x :: ys, w ∈ x :: (ys ++ [y]) := by
      intro w hw
      rcases List.mem_cons.mp hw with rfl | hw
      · simp
      · simp [hw]
    have hsuits := suits_square prefSize hzsound hzsq hysq
    rw [hmap]
    unfold pick
    split
    · next hs => exact ⟨by simp, ⟨hysound, hysq⟩, hbest.step.1 (hsuits.mp hs)⟩
    · next hs => exact ⟨hmem z hz, ⟨hzsound, hzsq⟩, hbest.step.2 (mt hsuits.mpr hs)⟩

/-- The loop over well-formed square icons. -/
theorem exists_scan_encode_aux (icons : List Icon) (prefSize : ℕ)
    (hshort : 4 * (encode icons).length < 2 ^ 32) :
    ∃ fuel s, scan (encode icons) prefSize fuel (start (encode icons)) = .stop s
      ∧ (icons = [] → s.chosen = {})
      ∧ (icons ≠ [] → ∃ pre i post, icons = pre ++ i :: post
        ∧ s.chosen = ⟨i.size * i.size, i.size, i.size, some (encode pre).length⟩
        ∧ Best prefSize (icons.map Icon.size) i.size) := by
  have hlen : (start (encode icons)).propValueLen = 4 * (encode icons).length :=
    Nat.mod_eq_of_lt hshort
  have hmet : Icons.icons (encode icons) prefSize = headers prefSize 0 icons := by
    rw [Icons.icons, hlen]
    exact met_encode rfl hshort le_rfl
  have hsound : ∀ x ∈ headers prefSize 0 icons, x.Sound (encode icons) :=
    sound_headers rfl ⟨by omega, hshort⟩
  have hsq : ∀ x ∈ headers prefSize 0 icons, x.height = x.width := by
    intro x hx
    obtain ⟨pre, i, post, -, rfl⟩ := exists_of_mem_headers hx
    rfl
  have hmove : ∀ x ∈ Icons.icons (encode icons) prefSize, expectedLen x.width x.height ≠ 0 := by
    intro x hx
    rw [hmet] at hx
    have hx' := hsound x hx
    obtain ⟨pre, i, post, hicons, rfl⟩ := exists_of_mem_headers hx
    have hlt : i.words.length ≤ (encode icons).length := by
      rw [hicons, encode_append, encode_cons, List.length_append, List.length_append]
      omega
    rw [i.length_words] at hlt
    rw [expectedLen_eq hx'.width.2 hx'.height.2, Nat.mod_eq_of_lt (by dsimp only; omega)]
    omega
  obtain ⟨s, hscan, hchosen⟩ := scan_start hmove
  rw [hmet] at hchosen
  refine ⟨_, s, hscan, ?_, fun hne => ?_⟩
  · rintro rfl
    exact hchosen
  · cases hheaders : headers prefSize 0 icons with
    | nil =>
      cases icons with
      | nil => exact absurd rfl hne
      | cons i icons => cases hheaders
    | cons x xs =>
      rw [hheaders] at hchosen hsound hsq
      obtain ⟨hmem, hbest⟩ := best_foldl prefSize hsound hsq
      rw [foldl_consider] at hchosen
      rw [← hheaders] at hmem hbest
      obtain ⟨pre, i, post, hicons, hi⟩ := exists_of_mem_headers hmem
      rw [hi] at hbest hchosen
      refine ⟨pre, i, post, hicons, ?_, hbest.of_headers⟩
      rw [hchosen, Header.chosen, curLen_eq i.lt i.lt, Nat.zero_add]

theorem encode_perm {icons icons' : List Icon} (h : icons'.Perm icons) :
    (encode icons').length = (encode icons).length := by
  exact (h.flatMap_right _).length_eq

/-- **The documented icon is chosen.** Of well-formed square icons in any order the loop chooses one of
the best size, at the place where its words are; in another order it chooses one of the same size. -/
theorem exists_scan_encode (icons : List Icon) (prefSize : ℕ)
    (hshort : 4 * (encode icons).length < 2 ^ 32) :
    ∃ fuel s, scan (encode icons) prefSize fuel (start (encode icons)) = .stop s
      ∧ (icons = [] → s.chosen = {})
      ∧ (icons ≠ [] → ∃ pre i post, icons = pre ++ i :: post
        ∧ s.chosen = ⟨i.size * i.size, i.size, i.size, some (encode pre).length⟩
        ∧ Best prefSize (icons.map Icon.size) i.size)
      ∧ ∀ icons' : List Icon, icons'.Perm icons → ∀ fuel' s',
        scan (encode icons') prefSize fuel' (start (encode icons')) = .stop s' →
          s'.chosen.width = s.chosen.width ∧ s'.chosen.height = s.chosen.height := by
  obtain ⟨fuel, s, hscan, hnil, hcons⟩ := exists_scan_encode_aux icons prefSize hshort
  refine ⟨fuel, s, hscan, hnil, hcons, fun icons' hperm fuel' s' hscan' => ?_⟩
  obtain ⟨fuel'', s'', hscan'', hnil', hcons'⟩ :=
    exists_scan_encode_aux icons' prefSize (by rwa [encode_perm hperm])
  rw [scan_unique hscan' hscan'']
  by_cases hne : icons = []
  · subst hne
    rw [hnil rfl, hnil' hperm.eq_nil]
    exact ⟨rfl, rfl⟩
  · obtain ⟨pre, i, post, -, hi, hbest⟩ := hcons hne
    obtain ⟨pre', j, post', -, hj, hbest'⟩ := hcons' fun h => hne (by simpa [h] using hperm.symm)
    have hsize : j.size = i.size :=
      hbest'.unique (fun t => (hperm.map Icon.size).mem_iff) hbest
    rw [hi, hj, hsize]
    exact ⟨rfl, rfl⟩

/-- A pixel before four pixels: with a preferred size of 2 the second icon is chosen. -/
theorem exists_scan_encode_two : ∃ fuel s,
    scan [1, 1, 7, 2, 2, 8, 8, 8, 8] 2 fuel (start [1, 1, 7, 2, 2, 8, 8, 8, 8]) = .stop s := by
  obtain ⟨fuel, s, hscan, -⟩ := exists_scan_encode
    [⟨1, [7], by decide, by decide, rfl⟩, ⟨2, [8, 8, 8, 8], by decide, by decide, rfl⟩] 2 (by decide)
  exact ⟨fuel, s, hscan⟩

end Icons

end I3
