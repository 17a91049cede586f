import Mathlib.Data.List.Nodup
import I3Aiwr.Anim.Clock

/-!
# Every animation ends once

What is pending are the animations that are active, and those whose final step callback runs. Each of
them ends by its done callback or by being cancelled, and is not pending afterwards.

## Main definitions

* `Anim.ended log`: the animations that have ended, in order
* `Anim.State.pending`
* `Anim.Careful`: the events that leave the slots that are used again where they are
* `Anim.Orderly`: what holds of the callbacks observed

## Main results

* `Anim.orderly_run`
-/

namespace I3

namespace Anim

/-! ### The slots -/

namespace State

variable {s : State} {i : ℕ} {slot : Slot}

theorem used_deactivate (s : State) (i : ℕ) :
    (s.deactivate i).used = s.used.modify i fun slot => { slot with active := false } :=
  List.take_modify ..

theorem perm_filter_modify {l : List Slot} (h : l[i]? = some slot) (hactive : slot.active) :
    (l.filter Slot.active).Perm
      (slot :: (l.modify i fun slot => { slot with active := false }).filter Slot.active) := by
  induction l generalizing i with
  | nil => cases h
  | cons a l ih =>
    cases i with
    | zero =>
      obtain rfl : a = slot := by simpa using h
      rw [List.modify_zero_cons, List.filter_cons_of_pos hactive, List.filter_cons_of_neg (by simp)]
    | succ i =>
      have hl := ih (i := i) (by simpa using h)
      rw [List.modify_succ_cons]
      by_cases ha : a.active = true
      · rw [List.filter_cons_of_pos ha, List.filter_cons_of_pos ha]
        exact (hl.cons a).trans (.swap ..)
      · rw [List.filter_cons_of_neg ha, List.filter_cons_of_neg ha]
        exact hl

/-- **Deactivating a slot** takes it out of the active ones. -/
theorem live_deactivate (hi : i < s.count) (hslot : s.slots[i]? = some slot) (hactive : slot.active) :
    s.live.Perm (slot :: (s.deactivate i).live) := by
  rw [live, live, used_deactivate]
  exact perm_filter_modify (by rw [used, List.getElem?_take, if_pos hi, hslot]) hactive

theorem map_used_deactivate {α : Type*} {f : Slot → α}
    (hf : ∀ slot, f { slot with active := false } = f slot) (s : State) (i : ℕ) :
    (s.deactivate i).used.map f = s.used.map f := by
  rw [used_deactivate]
  apply List.ext_getElem?
  intro j
  simp only [List.getElem?_map, List.getElem?_modify]
  cases s.used[j]? with
  | none => rfl
  | some slot =>
    by_cases hij : i = j
    · simp [hij, hf]
    · simp [hij]

theorem used_compact (s : State) (h : s.inTick = false) : s.compact.used = s.live := by
  rw [compact, if_neg (by simp [h]), used, List.take_left]

theorem live_compact (s : State) : s.compact.live = s.live := by
  by_cases h : s.inTick = true
  · rw [compact, if_pos h]
  · rw [live, used_compact s (by simpa using h), live, List.filter_filter]
    simp

theorem getElem?_slots_deactivate (s : State) (i j : ℕ) :
    ((s.deactivate i).slots[j]?).map Slot.animation = s.slots[j]?.map Slot.animation := by
  rw [deactivate, List.getElem?_modify]
  cases s.slots[j]? with
  | none => rfl
  | some slot => by_cases hij : i = j <;> simp [hij]

/-- A slot behind the active ones stays where it is. -/
theorem getElem?_slots_compact {j : ℕ} (h : s.inTick = false → s.live.length ≤ j) :
    s.compact.slots[j]? = s.slots[j]? := by
  rw [compact]
  split
  · rfl
  · next htick =>
    have hj := h (by simpa using htick)
    dsimp only
    rw [List.getElem?_append_right hj, List.getElem?_drop, Nat.add_sub_cancel' hj]

@[simp] theorem compact_stack (s : State) : s.compact.stack = s.stack := by
  rw [compact]; split <;> rfl
@[simp] theorem compact_log (s : State) : s.compact.log = s.log := by
  rw [compact]; split <;> rfl
@[simp] theorem compact_block (s : State) : s.compact.block = s.block := by
  rw [compact]; split <;> rfl
@[simp] theorem compact_animations (s : State) : s.compact.animations = s.animations := by
  rw [compact]; split <;> rfl
@[simp] theorem compact_inTick (s : State) : s.compact.inTick = s.inTick := by
  rw [compact]; split <;> rfl
@[simp] theorem compact_wild (s : State) : s.compact.wild = s.wild := by
  rw [compact]; split <;> rfl

end State

/-! ### What is pending, and what has ended -/

/-- The animation that ends. -/
def Entry.ends : Entry → Option ℕ
  | .done _ a | .cancel a => some a
  | _ => none

/-- The animations that have ended, in order. -/
def ended (log : List Entry) : List ℕ := log.filterMap Entry.ends

@[simp] theorem ended_append (l l' : List Entry) : ended (l ++ l') = ended l ++ ended l' :=
  List.filterMap_append

namespace Frame

/-- The animation whose done callback is called next. -/
def waits : Frame → Option ℕ
  | .finishStep _ _ a | .startStep a => some a
  | _ => none

/-- The pointer that is used again, and the animation whose slot it should point to. -/
def uses : Frame → Option (Ref × ℕ)
  | .finishStep ref _ a | .tickStep _ _ _ ref a true => some (ref, a)
  | _ => none

def isTick : Frame → Bool
  | .tickStep .. | .tickDone .. => true
  | _ => false

/-- The number of slots a tick goes through. -/
def bound : Frame → Option ℕ
  | .tickStep _ n .. | .tickDone _ n _ => some n
  | _ => none

/-- The animation a tick has come to the end of. -/
def reaches : Frame → Option ℕ
  | .tickStep _ _ _ _ a true => some a
  | _ => none

def finishes : Frame → Option ℕ
  | .finishStep _ _ a => some a
  | _ => none

end Frame

/-- The animations that will end. -/
def State.pending (s : State) : List ℕ :=
  s.live.map Slot.animation ++ s.stack.filterMap Frame.waits

theorem State.pending_call (s : State) {f : Frame} (hf : f.waits = none) (entries : List Entry) :
    (s.call f entries).pending = s.pending := by
  change s.live.map Slot.animation ++ (f :: s.stack).filterMap Frame.waits = s.pending
  rw [List.filterMap_cons_none hf, State.pending]

/-- Each animation is pending or has ended, once, and its number is taken. -/
structure Counted (log : List Entry) (pending : List ℕ) (animations : ℕ) : Prop where
  nodup : (ended log ++ pending).Nodup
  fresh : ∀ a ∈ ended log ++ pending, a < animations

namespace Counted

variable {log log' : List Entry} {pending pending' : List ℕ} {n : ℕ} {a : ℕ}

theorem congr (h : Counted log pending n) (hlog : ended log' = ended log)
    (hperm : pending'.Perm pending) : Counted log' pending' n := by
  have hall := hperm.append_left (ended log)
  refine ⟨?_, fun a ha => h.fresh a ?_⟩
  · rw [hlog, hall.nodup_iff]
    exact h.nodup
  · rw [hlog] at ha
    exact hall.mem_iff.mp ha

/-- An animation is started. -/
theorem start (h : Counted log pending n) (hlog : ended log' = ended log)
    (hperm : pending'.Perm (n :: pending)) : Counted log' pending' (n + 1) := by
  have hall : (ended log' ++ pending').Perm (n :: (ended log ++ pending)) := by
    rw [hlog]
    exact (hperm.append_left _).trans List.perm_middle
  refine ⟨hall.nodup_iff.mpr (List.nodup_cons.mpr ⟨fun hn => ?_, h.nodup⟩), fun a ha => ?_⟩
  · exact lt_irrefl n (h.fresh n hn)
  · rcases List.mem_cons.mp (hall.mem_iff.mp ha) with rfl | ha
    · exact Nat.lt_succ_self a
    · exact (h.fresh a ha).trans (Nat.lt_succ_self n)

/-- An animation ends. -/
theorem close (h : Counted log pending n) (hlog : ended log' = ended log ++ [a])
    (hperm : pending.Perm (a :: pending')) : Counted log' pending' n := by
  have hall : (ended log' ++ pending').Perm (ended log ++ pending) := by
    rw [hlog, List.append_assoc]
    exact (hperm.append_left _).symm
  exact ⟨hall.nodup_iff.mpr h.nodup, fun b hb => h.fresh b (hall.mem_iff.mp hb)⟩

end Counted

/-- The slots in use belong to different animations, and the active ones have different ids. -/
structure Placed (s : State) : Prop where
  count : s.count ≤ s.slots.length
  used : (s.used.map Slot.animation).Nodup
  fresh : ∀ a ∈ s.used.map Slot.animation, a < s.animations
  ids : (s.live.map Slot.id).Nodup

/-- A tick is the first of the calls that wait. -/
structure Nested (stack : List Frame) (inTick : Bool) : Prop where
  last : ∀ f rest, f :: rest <:+ stack → f.isTick → rest = []
  inTick : inTick = true ↔ ∃ f ∈ stack, f.isTick

/-- What is used again points to the slot it should. -/
structure Pointed (s : State) : Prop where
  bound : ∀ f ∈ s.stack, ∀ n ∈ f.bound, n ≤ s.count
  block : ∀ f ∈ s.stack, ∀ r ∈ f.uses, r.1.block = s.block
  slot : ∀ f ∈ s.stack, ∀ r ∈ f.uses, s.slots[r.1.index]?.map Slot.animation = some r.2
  index : ∀ f ∈ s.stack, ∀ r ∈ f.uses, f.isTick → r.1.index < s.count

/-- The callbacks called by `aiwr_anim_finish`. -/
structure Traced (log : List Entry) (stack : List Frame) : Prop where
  step : ∀ a b p e, Entry.step (.finish a) b p e ∈ log → b = a ∧ p = 1 ∧ e = 1
  done : ∀ a b, Entry.done (.finish a) b ∈ log →
    b = a ∧ [Entry.step (.finish a) a 1 1, .done (.finish a) a].Sublist log
  waits : ∀ a ∈ stack.filterMap Frame.finishes, Entry.step (.finish a) a 1 1 ∈ log
  finished : ∀ a, Entry.finish a ∈ log →
    Entry.done (.finish a) a ∈ log ∨ a ∈ stack.filterMap Frame.finishes

/-- The entry has to do with `aiwr_anim_finish`. -/
def Entry.byFinish : Entry → Bool
  | .step (.finish _) .. | .done (.finish _) _ | .finish _ => true
  | _ => false

/-- Another stack, with the same calls of `aiwr_anim_finish`. -/
theorem Traced.congr {log : List Entry} {stack stack' : List Frame} (h : Traced log stack)
    (hstack : stack'.filterMap Frame.finishes = stack.filterMap Frame.finishes) :
    Traced log stack' := by
  refine ⟨h.step, h.done, fun a ha => ?_, fun a hmem => ?_⟩
  · rw [hstack] at ha
    exact h.waits a ha
  · rw [hstack]
    exact h.finished a hmem

/-- More callbacks, called by others. -/
theorem Traced.append {log : List Entry} {stack stack' : List Frame} (h : Traced log stack)
    {entries : List Entry} (hother : ∀ e ∈ entries, e.byFinish = false)
    (hstack : stack'.filterMap Frame.finishes = stack.filterMap Frame.finishes) :
    Traced (log ++ entries) stack' := by
  have hold : ∀ e : Entry, e.byFinish = true → e ∈ log ++ entries → e ∈ log := by
    intro e he hmem
    refine (List.mem_append.mp hmem).resolve_right fun h' => ?_
    rw [hother e h'] at he
    cases he
  refine ⟨fun a b p e hmem => h.step a b p e (hold _ rfl hmem), fun a b hmem => ?_, fun a ha => ?_,
    fun a hmem => ?_⟩
  · obtain ⟨hab, hsub⟩ := h.done a b (hold _ rfl hmem)
    exact ⟨hab, hsub.trans (List.sublist_append_left ..)⟩
  · rw [hstack] at ha
    exact List.mem_append_left _ (h.waits a ha)
  · rw [hstack]
    exact (h.finished a (hold _ rfl hmem)).imp_left (List.mem_append_left _)

/-- `aiwr_anim_finish` calls the step callback, and waits. -/
theorem Traced.finish {log : List Entry} {stack : List Frame} (h : Traced log stack) {f : Frame}
    {a : ℕ} (hf : f.finishes = some a) :
    Traced (log ++ [.finish a, .step (.finish a) a 1 1]) (f :: stack) where
  step b c p e hmem := by
    rcases List.mem_append.mp hmem with hmem | hmem
    · exact h.step b c p e hmem
    · simp only [List.mem_cons, reduceCtorEq, Entry.step.injEq, Caller.finish.injEq,
        List.not_mem_nil, or_false, false_or] at hmem
      obtain ⟨rfl, rfl, rfl, rfl⟩ := hmem
      exact ⟨rfl, rfl, rfl⟩
  done b c hmem := by
    obtain ⟨hbc, hsub⟩ := h.done b c (by simpa using hmem)
    exact ⟨hbc, hsub.trans (List.sublist_append_left ..)⟩
  waits b hb := by
    rw [List.filterMap_cons_some hf] at hb
    rcases List.mem_cons.mp hb with rfl | hb
    · simp
    · exact List.mem_append_left _ (h.waits b hb)
  finished b hmem := by
    rw [List.filterMap_cons_some hf]
    have hcases : Entry.finish b ∈ log ∨ b = a := by simpa using hmem
    rcases hcases with hmem | rfl
    · exact (h.finished b hmem).imp (List.mem_append_left _) (List.mem_cons_of_mem _)
    · exact .inr (List.mem_cons_self ..)

/-- `aiwr_anim_finish` goes on to the done callback. -/
theorem Traced.finishDone {log : List Entry} {stack : List Frame} {f g : Frame} {a : ℕ}
    (h : Traced log (f :: stack)) (hf : f.finishes = some a) (hg : g.finishes = none) :
    Traced (log ++ [.done (.finish a) a]) (g :: stack) where
  step b c p e hmem := h.step b c p e (by simpa using hmem)
  done b c hmem := by
    rcases List.mem_append.mp hmem with hmem | hmem
    · obtain ⟨hbc, hsub⟩ := h.done b c hmem
      exact ⟨hbc, hsub.trans (List.sublist_append_left ..)⟩
    · simp only [List.mem_cons, Entry.done.injEq, Caller.finish.injEq, List.not_mem_nil,
        or_false] at hmem
      obtain ⟨rfl, rfl⟩ := hmem
      have hstep := h.waits _ (List.mem_filterMap.mpr ⟨f, List.mem_cons_self .., hf⟩)
      exact ⟨rfl, (List.singleton_sublist.mpr hstep).append (.refl _)⟩
  waits b hb := by
    rw [List.filterMap_cons_none hg] at hb
    refine List.mem_append_left _ (h.waits b ?_)
    rw [List.filterMap_cons_some hf]
    exact List.mem_cons_of_mem _ hb
  finished b hmem := by
    rw [List.filterMap_cons_none hg]
    have hb := h.finished b (by simpa using hmem)
    rw [List.filterMap_cons_some hf, List.mem_cons] at hb
    rcases hb with hb | hb | hb
    · exact .inl (List.mem_append_left _ hb)
    · rw [hb]
      simp
    · exact .inr hb

/-- An animation a tick has come to the end of has ended, or is about to. -/
def Reached (s : State) : Prop := ∀ a, Entry.reach a ∈ s.log →
  a ∈ ended s.log ∨ a ∈ s.pending ∧ a ∈ s.stack.filterMap Frame.reaches

/-- The invariant. -/
structure Inv (s : State) : Prop where
  wild : s.wild = false
  placed : Placed s
  nested : Nested s.stack s.inTick
  pointed : Pointed s
  counted : Counted s.log s.pending s.animations
  traced : Traced s.log s.stack
  reached : Reached s

theorem Inv.stopTimerIfIdle {s : State} (h : Inv s) : Inv s.stopTimerIfIdle := by
  rw [State.stopTimerIfIdle]
  split
  · exact h
  · exact ⟨h.wild, ⟨h.placed.count, h.placed.used, h.placed.fresh, h.placed.ids⟩, h.nested,
      ⟨h.pointed.bound, h.pointed.block, h.pointed.slot, h.pointed.index⟩, h.counted, h.traced,
      h.reached⟩

/-! ### Deactivating and compacting -/

section Slots

variable {s : State} {i : ℕ} {slot : Slot} {id : ℤ}

theorem slotById_spec (h : s.slotById id = some i) :
    i < s.count ∧ ∃ slot, s.slots[i]? = some slot ∧ slot.id = id ∧ slot.active := by
  rw [State.slotById] at h
  split at h
  · cases h
  · have hfound : (s.slots[i]?.any fun slot : Slot => slot.id = id ∧ slot.active) = true :=
      List.find?_some (p := fun i => s.slots[i]?.any fun slot : Slot => slot.id = id ∧ slot.active) h
    obtain ⟨slot, hslot, hid⟩ := (Option.any_eq_true _ _).mp hfound
    exact ⟨List.mem_range.mp (List.mem_of_find?_eq_some h), slot, hslot, by simpa using hid⟩

theorem Placed.deactivate (h : Placed s) (hi : i < s.count) (hslot : s.slots[i]? = some slot)
    (hactive : slot.active) : Placed (s.deactivate i) where
  count := by
    change s.count ≤ (s.slots.modify i _).length
    rw [List.length_modify]
    exact h.count
  used := by
    rw [State.map_used_deactivate (fun _ => rfl)]
    exact h.used
  fresh := by
    rw [State.map_used_deactivate (fun _ => rfl)]
    exact h.fresh
  ids := by
    have hperm := (State.live_deactivate hi hslot hactive).map Slot.id
    exact (List.nodup_cons.mp (hperm.nodup_iff.mp h.ids)).2

theorem Placed.compact (h : Placed s) : Placed s.compact := by
  by_cases htick : s.inTick = true
  · rwa [State.compact, if_pos htick]
  · have hfalse : s.inTick = false := by simpa using htick
    have hsub : s.live.Sublist s.used := List.filter_sublist
    refine ⟨?_, ?_, ?_, ?_⟩
    · rw [State.compact, if_neg htick]
      simp
    · rw [State.used_compact s hfalse]
      exact h.used.sublist (hsub.map _)
    · rw [State.used_compact s hfalse, State.compact_animations]
      exact fun a ha => h.fresh a ((hsub.map _).subset ha)
    · rw [State.live_compact]
      exact h.ids

theorem Pointed.deactivate (h : Pointed s) (i : ℕ) : Pointed (s.deactivate i) where
  bound := h.bound
  block := h.block
  slot f hf r hr := by
    rw [State.getElem?_slots_deactivate]
    exact h.slot f hf r hr
  index := h.index

theorem Frame.isTick_of_bound {f : Frame} {n : ℕ} (h : n ∈ f.bound) : f.isTick = true := by
  cases f with
  | tickStep | tickDone => rfl
  | _ => cases h

/-- The slots that are used again are behind the active ones. -/
theorem Pointed.compact (h : Pointed s)
    (hno : s.inTick = false → ∀ f ∈ s.stack, f.isTick = false)
    (hkeep : s.inTick = false → ∀ f ∈ s.stack, ∀ r ∈ f.uses, s.live.length ≤ r.1.index) :
    Pointed s.compact := by
  have hcount : ∀ f ∈ s.stack, f.isTick = true → s.compact.count = s.count := by
    intro f hf htick
    rw [State.compact, if_pos]
    by_contra hfalse
    rw [hno (by simpa using hfalse) f hf] at htick
    cases htick
  refine ⟨fun f hf n hn => ?_, fun f hf r hr => ?_, fun f hf r hr => ?_, fun f hf r hr htick => ?_⟩
  · rw [State.compact_stack] at hf
    rw [hcount f hf (f.isTick_of_bound hn)]
    exact h.bound f hf n hn
  · rw [State.compact_stack] at hf
    rw [State.compact_block]
    exact h.block f hf r hr
  · rw [State.compact_stack] at hf
    rw [State.getElem?_slots_compact fun hfalse => hkeep hfalse f hf r hr]
    exact h.slot f hf r hr
  · rw [State.compact_stack] at hf
    rw [hcount f hf htick]
    exact h.index f hf r hr htick

end Slots

/-! ### The steps -/

section Steps

variable {s : State}

theorem nested_push {stack : List Frame} {inTick : Bool} (h : Nested stack inTick) {f : Frame}
    (hf : f.isTick = false) : Nested (f :: stack) inTick where
  last g rest hsuffix hg := by
    rcases List.suffix_cons_iff.mp hsuffix with heq | hsuffix
    · obtain ⟨rfl, -⟩ := List.cons.inj heq
      rw [hf] at hg
      cases hg
    · exact h.last g rest hsuffix hg
  inTick := by
    rw [h.inTick]
    simp [hf]

theorem nested_pop {stack : List Frame} {inTick : Bool} {f : Frame} (h : Nested (f :: stack) inTick)
    (hf : f.isTick = false) : Nested stack inTick where
  last g rest hsuffix hg := h.last g rest (hsuffix.trans (List.suffix_cons f stack)) hg
  inTick := by
    rw [h.inTick]
    simp [hf]

theorem pointed_push (h : Pointed s) {f : Frame} {entries : List Entry} (hf : f.isTick = false)
    (hslot : ∀ r ∈ f.uses, r.1.block = s.block ∧ s.slots[r.1.index]?.map Slot.animation = some r.2) :
    Pointed (s.call f entries) where
  bound g hg n hn := by
    rcases List.mem_cons.mp hg with rfl | hg
    · rw [g.isTick_of_bound hn] at hf
      cases hf
    · exact h.bound g hg n hn
  block g hg r hr := by
    rcases List.mem_cons.mp hg with rfl | hg
    · exact (hslot r hr).1
    · exact h.block g hg r hr
  slot g hg r hr := by
    rcases List.mem_cons.mp hg with rfl | hg
    · exact (hslot r hr).2
    · exact h.slot g hg r hr
  index g hg r hr htick := by
    rcases List.mem_cons.mp hg with rfl | hg
    · rw [hf] at htick
      cases htick
    · exact h.index g hg r hr htick

/-- What comes of fewer calls that wait. -/
theorem Pointed.of_subset (h : Pointed s) {stack : List Frame} (hsub : stack ⊆ s.stack) :
    Pointed { s with stack := stack } :=
  ⟨fun f hf => h.bound f (hsub hf), fun f hf => h.block f (hsub hf), fun f hf => h.slot f (hsub hf),
    fun f hf => h.index f (hsub hf)⟩

/-- **The loop of a tick** goes on to the next callback, or comes to its end. Nothing else waits,
and what the tick came to the end of so far has ended. -/
theorem inv_tickOn {i n : ℕ} {now : ℚ} (hwild : s.wild = false) (hstack : s.stack = [])
    (htick : s.inTick = true) (hplaced : Placed s) (hcounted : Counted s.log s.pending s.animations)
    (htraced : Traced s.log []) (hreached : ∀ a, Entry.reach a ∈ s.log → a ∈ ended s.log)
    (hn : n ≤ s.count) : Inv (s.tickOn i n now) := by
  have hend : Inv s.endTick := by
    apply Inv.stopTimerIfIdle
    have hplaced' : Placed { s with inTick := false } :=
      ⟨hplaced.count, hplaced.used, hplaced.fresh, hplaced.ids⟩
    have hlive := State.live_compact { s with inTick := false }
    refine ⟨by simpa using hwild, hplaced'.compact, ?_, ?_, ?_, ?_, ?_⟩
    · rw [State.compact_stack, State.compact_inTick]
      exact ⟨by simp [hstack], by simp [hstack]⟩
    · refine ⟨?_, ?_, ?_, ?_⟩ <;> simp [hstack]
    · rw [State.compact_log, State.compact_animations, State.pending, hlive, State.compact_stack]
      exact hcounted
    · simpa [hstack] using htraced
    · intro a ha
      rw [State.compact_log] at ha ⊢
      exact .inl (hreached a ha)
  rw [State.tickOn]
  split
  · exact hend
  · next j hj =>
    split
    · exact hend
    · next slot hslot =>
      have hjn : j < n := by
        have := List.mem_range'_1.mp (List.mem_of_find?_eq_some hj)
        omega
      have hactive : slot.active = true := by
        have := List.find?_some hj
        rw [State.isActive, hslot] at this
        exact this
      have hget : s.used[j]? = some slot := by
        rw [State.used, List.getElem?_take, if_pos (hjn.trans_le hn), hslot]
      have hmem : slot ∈ s.live := List.mem_filter.mpr ⟨List.mem_of_getElem? hget, hactive⟩
      dsimp only
      generalize decide (1 ≤ State.progress slot now) = last
      generalize (min 1 (State.progress slot now)) = p
      have hends : ended ((if last = true then [Entry.reach slot.animation] else []) ++
          [.step .tick slot.animation p (slot.curve p)]) = [] := by
        cases last <;> rfl
      refine ⟨hwild, ⟨hplaced.count, hplaced.used, hplaced.fresh, hplaced.ids⟩, ?_, ?_, ?_, ?_, ?_⟩
      · simp only [State.call, hstack]
        refine ⟨fun f rest hsuffix _ => ?_, ?_⟩
        · rcases List.suffix_cons_iff.mp hsuffix with heq | hsuffix
          · exact (List.cons.inj heq).2
          · cases List.suffix_nil.mp hsuffix
        · simp [htick, Frame.isTick]
      · refine ⟨?_, ?_, ?_, ?_⟩
        · simpa [State.call, hstack, Frame.bound] using hn
        · simp only [State.call, hstack, List.forall_mem_singleton]
          cases last <;> simp [Frame.uses]
        · simp only [State.call, hstack, List.forall_mem_singleton]
          cases last <;> simp [Frame.uses, hslot]
        · simp only [State.call, hstack, List.forall_mem_singleton]
          cases last <;> simp [Frame.uses, hjn.trans_le hn]
      · refine hcounted.congr ?_ (.refl _)
        rw [State.call, ended_append, hends, List.append_nil]
      · simp only [State.call, hstack]
        refine htraced.append (fun e he => ?_) rfl
        cases last <;> simp at he <;> rcases he with rfl | rfl <;> rfl
      · intro a ha
        simp only [State.call, List.mem_append] at ha
        rcases ha with ha | ha | ha
        · left
          rw [State.call, ended_append, hends, List.append_nil]
          exact hreached a ha
        · right
          cases last with
          | false => simp at ha
          | true =>
            obtain rfl : a = slot.animation := by simpa using ha
            refine ⟨List.mem_append_left _ (List.mem_map_of_mem hmem), ?_⟩
            simp [State.call, Frame.reaches]
        · simp at ha

theorem inv_tick (h : Inv s) (hstack : s.stack = []) (now : ℚ) : Inv (s.tick now) := by
  have hplaced : Placed { s with inTick := true } :=
    ⟨h.placed.count, h.placed.used, h.placed.fresh, h.placed.ids⟩
  refine inv_tickOn h.wild hstack rfl hplaced h.counted (hstack ▸ h.traced) (fun a ha => ?_) le_rfl
  refine (h.reached a ha).resolve_right fun h' => ?_
  simp [hstack] at h'

/-- What is reached is still about to end, where nothing but a call that waits is added. -/
theorem Reached.mono {s' : State} (h : Reached s)
    (hlog : ∀ a, Entry.reach a ∈ s'.log → Entry.reach a ∈ s.log)
    (hended : ended s.log ⊆ ended s'.log)
    (hpending : ∀ a ∈ s.pending, a ∈ ended s'.log ∨ a ∈ s'.pending)
    (hstack : ∀ a ∈ s.stack.filterMap Frame.reaches, a ∈ ended s'.log ∨ a ∈ s'.stack.filterMap Frame.reaches) :
    Reached s' := by
  intro a ha
  rcases h a (hlog a ha) with h' | ⟨hp, hf⟩
  · exact .inl (hended h')
  · rcases hpending a hp with h' | hp
    · exact .inl h'
    · exact (hstack a hf).imp_right fun hf => ⟨hp, hf⟩

/-- The array after a slot is registered. -/
def State.register (s : State) (slot : Slot) (nextId : ℤ) : State :=
  { s with
    slots := s.used ++ [slot]
    count := s.count + 1
    nextId := nextId
    block := s.block + 1
    timerRunning := true
    animations := s.animations + 1 }

theorem used_register (s : State) (slot : Slot) (nextId : ℤ) :
    (s.register slot nextId).used = s.used ++ [slot] := by
  refine List.take_of_length_le ?_
  change (s.used ++ [slot]).length ≤ s.count + 1
  simp [State.used]

theorem live_register (s : State) {slot : Slot} (hactive : slot.active) (nextId : ℤ) :
    (s.register slot nextId).live = s.live ++ [slot] := by
  rw [State.live, used_register, List.filter_append, State.live, List.filter_cons_of_pos hactive,
    List.filter_nil]

/-- Registering a slot, when no pointer is used again. -/
theorem inv_register (h : Inv s) {slot : Slot} {nextId : ℤ} (hactive : slot.active)
    (hslot : slot.animation = s.animations) (hfree : ∀ f ∈ s.stack, f.uses = none)
    (hid : ∀ slot' ∈ s.live, slot'.id ≠ slot.id) : Inv (s.register slot nextId) := by
  have hused := used_register s slot nextId
  have hlive := live_register s hactive nextId
  have hnone : ∀ f ∈ s.stack, ∀ r ∈ f.uses, False := by
    intro f hf r hr
    rw [hfree f hf] at hr
    cases hr
  have hpending : (s.register slot nextId).pending.Perm (s.animations :: s.pending) := by
    rw [State.pending, hlive, List.map_append, List.append_assoc, ← hslot]
    exact List.perm_middle
  refine ⟨h.wild, ⟨?_, ?_, ?_, ?_⟩, h.nested, ?_, h.counted.start rfl hpending, h.traced, ?_⟩
  · change s.count + 1 ≤ (s.used ++ [slot]).length
    simp [State.used, h.placed.count]
  · rw [hused, List.map_append]
    refine List.nodup_append.mpr ⟨h.placed.used, List.pairwise_singleton .., fun a ha b hb => ?_⟩
    rw [List.map_singleton, List.mem_singleton, hslot] at hb
    exact hb ▸ (h.placed.fresh a ha).ne
  · intro a ha
    rw [hused, List.map_append] at ha
    rcases List.mem_append.mp ha with ha | ha
    · exact (h.placed.fresh a ha).trans (Nat.lt_succ_self _)
    · rw [List.map_singleton, List.mem_singleton, hslot] at ha
      exact ha ▸ Nat.lt_succ_self _
  · rw [hlive, List.map_append]
    refine List.nodup_append.mpr ⟨h.placed.ids, List.pairwise_singleton .., fun i hi j hj => ?_⟩
    obtain ⟨slot', hslot', rfl⟩ := List.mem_map.mp hi
    rw [List.map_singleton, List.mem_singleton] at hj
    exact hj ▸ hid slot' hslot'
  · exact ⟨fun f hf n hn => (h.pointed.bound f hf n hn).trans (Nat.le_succ _),
      fun f hf r hr => (hnone f hf r hr).elim, fun f hf r hr => (hnone f hf r hr).elim,
      fun f hf r hr => (hnone f hf r hr).elim⟩
  · exact h.reached.mono (fun a ha => ha) (List.Subset.refl _)
      (fun a ha => .inr (hpending.symm.subset (List.mem_cons_of_mem _ ha))) fun a ha => .inr ha

theorem inv_start (h : Inv s) {durationMs natural now : ℚ} {curve : ℚ → ℚ}
    (hcareful : 0 < (if natural > 0 then natural else durationMs) →
      (∀ f ∈ s.stack, f.uses = none) ∧ ∀ slot ∈ s.live, slot.id ≠ s.nextId) :
    Inv (s.start durationMs natural now curve) := by
  unfold State.start
  dsimp only
  generalize (if natural > 0 then natural else durationMs) = duration at hcareful ⊢
  split
  · -- without a duration nothing is registered
    refine ⟨h.wild, ⟨h.placed.count, h.placed.used, ?_, h.placed.ids⟩, nested_push h.nested rfl, ?_, ?_,
      h.traced.append (by simp [Entry.byFinish]) rfl, ?_⟩
    · exact fun a ha => (h.placed.fresh a ha).trans (Nat.lt_succ_self _)
    · have h' : Pointed { s with animations := s.animations + 1 } :=
        ⟨h.pointed.bound, h.pointed.block, h.pointed.slot, h.pointed.index⟩
      exact pointed_push h' rfl (by simp [Frame.uses])
    · refine h.counted.start ?_ ?_
      · simp [State.call, ended, Entry.ends]
      · exact List.perm_middle
    · refine h.reached.mono (fun a ha => ?_) ?_ (fun a ha => .inr ?_) fun a ha => .inr ha
      · simpa [State.call] using ha
      · simp [State.call]
      · rcases List.mem_append.mp ha with ha | ha
        · exact List.mem_append_left _ ha
        · exact List.mem_append_right _ (List.mem_cons_of_mem _ ha)
  · next hpos =>
    obtain ⟨hfree, hid⟩ := hcareful (not_le.mp hpos)
    exact inv_register h rfl rfl hfree hid

/-- Compacting, when the pointers that are used again point behind the active slots. -/
theorem inv_compact (h : Inv s)
    (hkeep : s.inTick = false → ∀ f ∈ s.stack, ∀ r ∈ f.uses, s.live.length ≤ r.1.index) :
    Inv s.compact.stopTimerIfIdle := by
  have hno : s.inTick = false → ∀ f ∈ s.stack, f.isTick = false := by
    intro hfalse f hf
    by_contra htick
    have := h.nested.inTick.mpr ⟨f, hf, by simpa using htick⟩
    rw [hfalse] at this
    cases this
  have hpending : s.compact.pending = s.pending := by
    rw [State.pending, State.live_compact, State.compact_stack, State.pending]
  apply Inv.stopTimerIfIdle
  refine ⟨by simpa using h.wild, h.placed.compact, by simpa using h.nested,
    h.pointed.compact hno hkeep, ?_, by simpa using h.traced, ?_⟩
  · rw [hpending, State.compact_log, State.compact_animations]
    exact h.counted
  · intro a ha
    rw [State.compact_log] at ha
    rw [State.compact_log, State.compact_stack, hpending]
    exact h.reached a ha

theorem inv_cancel (h : Inv s) {id : ℤ} (hfinishing : s.slotById id = none → s.finishing id = none)
    (hkeep : s.slotById id ≠ none → s.inTick = false →
      ∀ f ∈ s.stack, ∀ r ∈ f.uses, s.live.length ≤ r.1.index + 1) : Inv (s.cancel id) := by
  rw [State.cancel]
  split
  · next hnone =>
    rw [hfinishing hnone]
    exact h
  · next i hi =>
    obtain ⟨hcount, slot, hslot, -, hactive⟩ := slotById_spec hi
    have hlive := State.live_deactivate hcount hslot hactive
    have hpending : s.pending.Perm (slot.animation :: (s.deactivate i).pending) :=
      (hlive.map Slot.animation).append_right _
    rw [hslot]
    have hplaced := h.placed.deactivate hcount hslot hactive
    have hpointed := h.pointed.deactivate i
    refine inv_compact ⟨h.wild, ⟨hplaced.count, hplaced.used, hplaced.fresh, hplaced.ids⟩, h.nested,
      ⟨hpointed.bound, hpointed.block, hpointed.slot, hpointed.index⟩, h.counted.close ?_ hpending,
      h.traced.append (by simp [Entry.byFinish]) rfl, ?_⟩ fun htick f hf r hr => ?_
    · simp [State.deactivate, State.note, ended, Entry.ends]
    · refine h.reached.mono (fun a ha => ?_) ?_ (fun a ha => ?_) fun a ha => .inr ha
      · simpa [State.deactivate, State.note] using ha
      · simp [State.deactivate, State.note]
      · rcases List.mem_cons.mp (hpending.subset ha) with rfl | ha
        · left
          simp [State.deactivate, State.note, ended, Entry.ends]
        · exact .inr ha
    · have hlength := hlive.length_eq
      rw [List.length_cons] at hlength
      have := hkeep (by simp [hi]) htick f hf r hr
      change (s.deactivate i).live.length ≤ r.1.index
      omega

theorem inv_finish (h : Inv s) (id : ℤ) : Inv (s.finish id) := by
  rw [State.finish]
  split
  · exact h
  · next i hi =>
    obtain ⟨hcount, slot, hslot, -, hactive⟩ := slotById_spec hi
    have hlive := (State.live_deactivate hcount hslot hactive).map Slot.animation
    have hanimation : (s.deactivate i).slots[i]?.map Slot.animation = some slot.animation := by
      rw [State.getElem?_slots_deactivate, hslot, Option.map_some]
    rw [hslot]
    dsimp only
    have hpending : ((s.deactivate i).live.map Slot.animation ++
        slot.animation :: s.stack.filterMap Frame.waits).Perm s.pending :=
      List.perm_middle.trans (hlive.append_right _).symm
    refine ⟨h.wild, ?_, nested_push h.nested rfl, ?_, h.counted.congr ?_ hpending, ?_, ?_⟩
    · have := h.placed.deactivate hcount hslot hactive
      exact ⟨this.count, this.used, this.fresh, this.ids⟩
    · refine pointed_push (h.pointed.deactivate i) rfl fun r hr => ?_
      obtain rfl : _ = r := Option.some.inj hr
      exact ⟨rfl, hanimation⟩
    · simp [State.deactivate, State.call, ended, Entry.ends]
    · exact h.traced.finish rfl
    · refine h.reached.mono (fun a ha => ?_) ?_ (fun a ha => .inr (hpending.symm.subset ha))
        fun a ha => .inr ha
      · simpa [State.deactivate, State.call] using ha
      · simp [State.deactivate, State.call]

/-- The call that waits goes on to the done callback. -/
theorem inv_closing (h : Inv s) {f g : Frame} {rest : List Frame} {c : Caller} {a : ℕ}
    (hstack : s.stack = f :: rest) (hf : f.isTick = false) (hwaits : f.waits = some a)
    (hg : g.isTick = false) (hgwaits : g.waits = none) (hguses : g.uses = none)
    (htraced : Traced (s.log ++ [.done c a]) (g :: rest)) :
    Inv ({ s with stack := rest }.call g [.done c a]) := by
  have hpending : s.pending.Perm (a :: { s with stack := rest }.pending) := by
    rw [State.pending, hstack, List.filterMap_cons_some hwaits]
    exact List.perm_middle
  have hnested := h.nested
  rw [hstack] at hnested
  have hpointed : Pointed { s with stack := rest } :=
    h.pointed.of_subset (hstack ▸ List.subset_cons_self f rest)
  refine ⟨h.wild, ⟨h.placed.count, h.placed.used, h.placed.fresh, h.placed.ids⟩,
    nested_push (nested_pop hnested hf) hg, pointed_push hpointed hg (by simp [hguses]),
    h.counted.close (a := a) ?_ ?_, htraced, ?_⟩
  · simp [State.call, ended, Entry.ends]
  · rw [State.pending_call _ hgwaits]
    exact hpending
  · refine h.reached.mono (fun b hb => ?_) ?_ (fun b hb => ?_) fun b hb => ?_
    · simpa [State.call] using hb
    · simp [State.call]
    · rcases List.mem_cons.mp (hpending.subset hb) with rfl | hb
      · left
        simp [State.call, ended, Entry.ends]
      · right
        rw [State.pending_call _ hgwaits]
        exact hb
    · right
      have hreaches : f.reaches = none := by
        cases f with
        | tickStep => cases hf
        | _ => rfl
      rw [hstack, List.filterMap_cons_none hreaches] at hb
      have hmem := (List.sublist_cons_self g rest).filterMap Frame.reaches |>.subset hb
      exact hmem

/-- A call that waits for nothing more returns. -/
theorem inv_pop (h : Inv s) {f : Frame} {rest : List Frame} (hstack : s.stack = f :: rest)
    (hf : f.isTick = false) (hwaits : f.waits = none) : Inv { s with stack := rest } := by
  have hreaches : f.reaches = none ∧ f.finishes = none := by
    cases f with
    | finishStep => cases hwaits
    | tickStep => cases hf
    | _ => exact ⟨rfl, rfl⟩
  have hpending : s.pending = { s with stack := rest }.pending := by
    rw [State.pending, hstack, List.filterMap_cons_none hwaits]
    rfl
  have hnested := h.nested
  have htraced := h.traced
  have hreached := h.reached
  rw [hstack] at hnested htraced
  refine ⟨h.wild, ⟨h.placed.count, h.placed.used, h.placed.fresh, h.placed.ids⟩,
    nested_pop hnested hf, h.pointed.of_subset (hstack ▸ List.subset_cons_self f rest),
    hpending ▸ h.counted, ?_, fun a ha => ?_⟩
  · exact htraced.congr (List.filterMap_cons_none hreaches.2).symm
  · have := hreached a ha
    rw [hstack, List.filterMap_cons_none hreaches.1, hpending] at this
    exact this

/-- The slot a tick comes back to has not been deactivated by another one. -/
theorem animation_ne_of_inactive (h : Placed s) {i : ℕ} {slot : Slot} (hi : i < s.count)
    (hslot : s.slots[i]? = some slot) (hactive : slot.active = false) :
    slot.animation ∉ s.live.map Slot.animation := by
  intro hmem
  obtain ⟨slot', hlive, heq⟩ := List.mem_map.mp hmem
  have hget : s.used[i]? = some slot := by rw [State.used, List.getElem?_take, if_pos hi, hslot]
  have hslot' : slot' = slot :=
    List.inj_on_of_nodup_map h.used (List.mem_filter.mp hlive).1 (List.mem_of_getElem? hget) heq
  have hlive' := (List.mem_filter.mp hlive).2
  rw [hslot', hactive] at hlive'
  cases hlive'

/-- The step callback of a tick returns. -/
theorem inv_tickStep (h : Inv s) {i n : ℕ} {now : ℚ} {ref : Ref} {a : ℕ} {last : Bool}
    {rest : List Frame} (hstack : s.stack = .tickStep i n now ref a last :: rest) : Inv s.ret := by
  have hnested := h.nested
  have htraced := h.traced
  have hpointed := h.pointed
  have hreached := h.reached
  have hfirst : Frame.tickStep i n now ref a last ∈ s.stack := hstack ▸ List.mem_cons_self ..
  rw [hstack] at hnested
  obtain rfl : rest = [] := hnested.last _ _ (List.suffix_refl _) rfl
  have htick : s.inTick = true := hnested.inTick.mpr ⟨_, List.mem_cons_self .., rfl⟩
  have hn : n ≤ s.count := hpointed.bound _ hfirst n rfl
  have hpending : s.pending = s.live.map Slot.animation := by
    rw [State.pending, hstack]
    exact List.append_nil _
  have hplaced : Placed { s with stack := [] } :=
    ⟨h.placed.count, h.placed.used, h.placed.fresh, h.placed.ids⟩
  have hcounted : Counted s.log { s with stack := [] }.pending s.animations := by
    have := h.counted
    rw [hpending] at this
    rw [State.pending, List.filterMap_nil, List.append_nil]
    exact this
  have htraced' : Traced s.log [] := htraced.congr (by rw [hstack]; rfl)
  rw [State.ret, hstack]
  dsimp only
  cases last with
  | false =>
    refine inv_tickOn h.wild rfl htick hplaced hcounted htraced' (fun b hb => ?_) hn
    refine (hreached b hb).resolve_right fun ⟨_, hb⟩ => ?_
    simp [hstack, Frame.reaches] at hb
  | true =>
    have hblock : ref.block = s.block := hpointed.block _ hfirst _ rfl
    have hindex : ref.index < s.count := hpointed.index _ hfirst _ rfl rfl
    obtain ⟨slot, hslot, rfl⟩ := Option.map_eq_some_iff.mp (hpointed.slot _ hfirst _ rfl)
    have hreached' : ∀ b, Entry.reach b ∈ s.log →
        b ∈ ended s.log ∨ b ∈ s.live.map Slot.animation ∧ b = slot.animation := by
      intro b hb
      have := hreached b hb
      rw [hpending, hstack] at this
      exact this.imp_right fun h' => ⟨h'.1, List.mem_singleton.mp h'.2⟩
    rw [if_neg (by simp), State.deref, if_pos hblock, hslot]
    dsimp only
    split
    · -- the callback has cancelled or finished the animation
      next hinactive =>
      refine inv_tickOn h.wild rfl htick hplaced hcounted htraced' (fun b hb => ?_) hn
      refine (hreached' b hb).resolve_right fun ⟨hlive, heq⟩ => ?_
      subst heq
      exact animation_ne_of_inactive h.placed hindex hslot (by simpa using hinactive) hlive
    · next hactive =>
      have hactive : slot.active = true := by simpa using hactive
      have hlive := (State.live_deactivate (s := { s with stack := [] }) hindex hslot hactive).map
        Slot.animation
      have hpending' : ({ s with stack := [] }.pending).Perm
          (slot.animation :: ({ s with stack := [] }.deactivate ref.index).pending) :=
        hlive.append_right _
      refine ⟨h.wild, ?_, ⟨fun f rest hsuffix _ => ?_, ?_⟩, ⟨?_, ?_, ?_, ?_⟩,
        hcounted.close (a := slot.animation) ?_ hpending', ?_, fun b hb => ?_⟩
      · have := hplaced.deactivate hindex hslot hactive
        exact ⟨this.count, this.used, this.fresh, this.ids⟩
      · rcases List.suffix_cons_iff.mp hsuffix with heq | hsuffix
        · exact (List.cons.inj heq).2
        · cases List.suffix_nil.mp hsuffix
      · simp [State.call, State.deactivate, htick, Frame.isTick]
      · simpa [State.call, State.deactivate, Frame.bound] using hn
      · simp [State.call, State.deactivate, Frame.uses]
      · simp [State.call, State.deactivate, Frame.uses]
      · simp [State.call, State.deactivate, Frame.uses]
      · simp [State.call, State.deactivate, ended, Entry.ends]
      · exact htraced'.append (by simp [Entry.byFinish]) rfl
      · left
        have hb' : Entry.reach b ∈ s.log := by simpa [State.call, State.deactivate] using hb
        rcases hreached' b hb' with h' | ⟨-, rfl⟩
        · simp [State.call, State.deactivate, h']
        · simp [State.call, State.deactivate, ended, Entry.ends]

/-- The done callback of a tick returns. -/
theorem inv_tickDone (h : Inv s) {i n : ℕ} {now : ℚ} {rest : List Frame}
    (hstack : s.stack = .tickDone i n now :: rest) : Inv s.ret := by
  have hnested := h.nested
  have hfirst : Frame.tickDone i n now ∈ s.stack := hstack ▸ List.mem_cons_self ..
  rw [hstack] at hnested
  obtain rfl : rest = [] := hnested.last _ _ (List.suffix_refl _) rfl
  have htick : s.inTick = true := hnested.inTick.mpr ⟨_, List.mem_cons_self .., rfl⟩
  have hcounted := h.counted
  have htraced := h.traced
  rw [State.pending, hstack, List.filterMap_cons_none rfl] at hcounted
  have htraced' : Traced s.log [] := htraced.congr (by rw [hstack]; rfl)
  rw [State.ret, hstack]
  refine inv_tickOn h.wild rfl htick ⟨h.placed.count, h.placed.used, h.placed.fresh, h.placed.ids⟩
    hcounted htraced' (fun b hb => ?_) (h.pointed.bound _ hfirst n rfl)
  refine (h.reached b hb).resolve_right fun ⟨_, hb⟩ => ?_
  simp [hstack, Frame.reaches] at hb

theorem inv_ret (h : Inv s)
    (hkeep : s.stack.head? = some .finishDone → s.inTick = false →
      ∀ f ∈ s.stack, ∀ r ∈ f.uses, s.live.length ≤ r.1.index) : Inv s.ret := by
  cases hstack : s.stack with
  | nil =>
    rw [State.ret, hstack]
    exact h
  | cons frame rest =>
    have htraced := h.traced
    rw [hstack] at htraced
    have hfirst : frame ∈ s.stack := hstack ▸ List.mem_cons_self ..
    cases frame with
    | tickStep i n now ref a last => exact inv_tickStep h hstack
    | tickDone i n now => exact inv_tickDone h hstack
    | finishStep ref id a =>
      have hblock : ref.block = s.block := h.pointed.block _ hfirst _ rfl
      obtain ⟨slot, hslot, rfl⟩ := Option.map_eq_some_iff.mp (h.pointed.slot _ hfirst _ rfl)
      rw [State.ret, hstack]
      dsimp only
      rw [State.deref, if_pos hblock, hslot]
      exact inv_closing h hstack rfl rfl rfl rfl rfl (htraced.finishDone rfl rfl)
    | finishDone =>
      rw [State.ret, hstack]
      refine inv_compact (inv_pop h hstack rfl rfl) fun htick f hf r hr => ?_
      exact hkeep (by rw [hstack]; rfl) htick f (hstack ▸ List.mem_cons_of_mem _ hf) r hr
    | startStep a =>
      rw [State.ret, hstack]
      exact inv_closing h hstack rfl rfl rfl rfl rfl (htraced.append (by simp [Entry.byFinish]) rfl)
    | startDone =>
      rw [State.ret, hstack]
      exact inv_pop h hstack rfl rfl

end Steps

/-! ### Ids -/

/-- Ids are positive, so that `slot_by_id` finds them. -/
def Positive (s : State) : Prop := 0 < s.nextId ∧ ∀ slot ∈ s.slots, 0 < slot.id

namespace Positive

variable {s : State}

theorem deactivate (h : Positive s) (i : ℕ) : Positive (s.deactivate i) := by
  refine ⟨h.1, fun slot hslot => ?_⟩
  obtain ⟨j, hj⟩ := List.mem_iff_getElem?.mp hslot
  rw [State.deactivate, List.getElem?_modify] at hj
  obtain ⟨slot', hslot', rfl⟩ := Option.map_eq_some_iff.mp hj
  have hid := h.2 slot' (List.mem_of_getElem? hslot')
  split <;> exact hid

theorem compact (h : Positive s) : Positive s.compact.stopTimerIfIdle := by
  have hslots : ∀ slot ∈ s.compact.slots, 0 < slot.id := by
    rw [State.compact]
    split
    · exact h.2
    · intro slot hslot
      rcases List.mem_append.mp hslot with hslot | hslot
      · exact h.2 slot (List.mem_of_mem_take (List.mem_filter.mp hslot).1)
      · exact h.2 slot (List.mem_of_mem_drop hslot)
  have hnext : 0 < s.compact.nextId := by
    rw [State.compact]
    split <;> exact h.1
  rw [State.stopTimerIfIdle]
  split <;> exact ⟨hnext, hslots⟩

theorem tickOn (h : Positive s) (i n : ℕ) (now : ℚ) : Positive (s.tickOn i n now) := by
  have hend : Positive s.endTick := Positive.compact (s := { s with inTick := false }) h
  rw [State.tickOn]
  split
  · exact hend
  · split
    · exact hend
    · exact h

theorem ret (h : Positive s) : Positive s.ret := by
  rw [State.ret]
  split
  · exact h
  · next frame rest _ =>
    have hrest : Positive { s with stack := rest } := h
    dsimp only
    cases frame with
    | tickStep i n now ref a last =>
      dsimp only
      split
      · exact hrest.tickOn ..
      · split
        · exact h
        · split
          · exact hrest.tickOn ..
          · exact hrest.deactivate ref.index
    | tickDone i n now => exact hrest.tickOn ..
    | finishStep ref id a =>
      dsimp only
      split <;> exact h
    | finishDone => exact hrest.compact
    | startStep a => exact h
    | startDone => exact h

theorem start (h : Positive s) (durationMs natural now : ℚ) (curve : ℚ → ℚ) :
    Positive (s.start durationMs natural now curve) := by
  unfold State.start
  dsimp only
  generalize (if natural > 0 then natural else durationMs) = duration
  split
  · exact h
  · refine ⟨?_, fun slot hslot => ?_⟩
    · have := h.1
      dsimp only
      split
      · omega
      · exact one_pos
    · rcases List.mem_append.mp hslot with hslot | hslot
      · exact h.2 slot (List.mem_of_mem_take hslot)
      · rw [List.mem_singleton.mp hslot]
        exact h.1

theorem step (h : Positive s) (e : Event) : Positive (Anim.step s e) := by
  unfold Anim.step
  split
  · exact h
  · cases e with
    | tick now =>
      dsimp only
      split
      · exact tickOn (s := { s with inTick := true }) h ..
      · exact h
    | start durationMs natural now curve => exact h.start durationMs natural now curve
    | cancel id =>
      change Positive (s.cancel id)
      rw [State.cancel]
      split
      · split <;> exact h
      · next i _ =>
        split
        · exact h
        · next slot _ => exact (deactivate (s := s.note [.cancel slot.animation]) h i).compact
    | finish id =>
      change Positive (s.finish id)
      rw [State.finish]
      split
      · exact h
      · next i _ =>
        split
        · exact h
        · exact h.deactivate i
    | ret => exact h.ret

end Positive

/-! ### Runs -/

/-- The events after which what is used again is what it was: nothing is registered while a pointer
waits to be used, no compaction moves a slot to where one points, an animation is not cancelled
during its final step callback, and no id is given a second time. -/
def Careful (s : State) : Event → Prop
  | .start durationMs natural _ _ => 0 < (if natural > 0 then natural else durationMs) →
      (∀ f ∈ s.stack, f.uses = none) ∧ ∀ slot ∈ s.live, slot.id ≠ s.nextId
  | .cancel id => (s.slotById id = none → s.finishing id = none) ∧
      (s.slotById id ≠ none → s.inTick = false →
        ∀ f ∈ s.stack, ∀ r ∈ f.uses, s.live.length ≤ r.1.index + 1)
  | .ret => s.stack.head? = some .finishDone → s.inTick = false →
      ∀ f ∈ s.stack, ∀ r ∈ f.uses, s.live.length ≤ r.1.index
  | _ => True

instance (s : State) : ∀ e : Event, Decidable (Careful s e)
  | .start durationMs natural _ _ => inferInstanceAs (Decidable
      (0 < (if natural > 0 then natural else durationMs) →
        (∀ f ∈ s.stack, f.uses = none) ∧ ∀ slot ∈ s.live, slot.id ≠ s.nextId))
  | .cancel id => inferInstanceAs (Decidable ((s.slotById id = none → s.finishing id = none) ∧
      (s.slotById id ≠ none → s.inTick = false →
        ∀ f ∈ s.stack, ∀ r ∈ f.uses, s.live.length ≤ r.1.index + 1)))
  | .ret => inferInstanceAs (Decidable (s.stack.head? = some .finishDone → s.inTick = false →
      ∀ f ∈ s.stack, ∀ r ∈ f.uses, s.live.length ≤ r.1.index))
  | .tick _ | .finish _ => .isTrue trivial

theorem inv_step {s : State} {e : Event} (h : Inv s) (he : Careful s e) : Inv (step s e) := by
  unfold step
  rw [if_neg (by simp [h.wild])]
  cases e with
  | tick now =>
    dsimp only
    split
    · next hidle => exact inv_tick h hidle.1 now
    · exact h
  | start durationMs natural now curve => exact inv_start h he
  | cancel id => exact inv_cancel h he.1 he.2
  | finish id => exact inv_finish h id
  | ret => exact inv_ret h he

theorem inv_new : Inv {} where
  wild := rfl
  placed := ⟨le_rfl, List.nodup_nil, by simp [State.used], List.nodup_nil⟩
  nested := ⟨by simp, by simp⟩
  pointed := by constructor <;> simp
  counted := ⟨List.nodup_nil, by simp [ended, State.pending, State.live, State.used]⟩
  traced := by constructor <;> simp
  reached := by simp [Reached]

/-- **Every animation ends once.** -/
structure Orderly (s : State) : Prop where
  /-- No pointer into an old block was used. -/
  wild : s.wild = false
  once : ∀ c c' a, ¬ [Entry.done c a, .done c' a].Sublist s.log
  cancelled : ∀ c a, ¬ [Entry.cancel a, .done c a].Sublist s.log
  /-- An id denotes one animation, and `aiwr_anim_finish` calls that one's step callback. -/
  finish : ∀ slot ∈ s.live, (s.finish slot.id).log = s.log ++
    [.finish slot.animation, .step (.finish slot.animation) slot.animation 1 1]
  finishStep : ∀ a b p e, Entry.step (.finish a) b p e ∈ s.log → b = a ∧ p = 1 ∧ e = 1
  finishDone : ∀ a b, Entry.done (.finish a) b ∈ s.log →
    b = a ∧ [Entry.step (.finish a) a 1 1, .done (.finish a) a].Sublist s.log
  /-- When `aiwr_anim_finish` has returned, the done callback has been called. -/
  finished : s.stack = [] → ∀ a, Entry.finish a ∈ s.log → Entry.done (.finish a) a ∈ s.log
  /-- When a tick has returned, the animations it came to the end of have ended. -/
  reached : s.stack = [] → ∀ a, Entry.reach a ∈ s.log →
    .cancel a ∈ s.log ∨ ∃ c, Entry.done c a ∈ s.log

theorem mem_ended {log : List Entry} {a : ℕ} (h : a ∈ ended log) :
    .cancel a ∈ log ∨ ∃ c, Entry.done c a ∈ log := by
  obtain ⟨e, he, hends⟩ := List.mem_filterMap.mp h
  cases e with
  | done c b =>
    obtain rfl : b = a := Option.some.inj hends
    exact .inr ⟨c, he⟩
  | cancel b =>
    obtain rfl : b = a := Option.some.inj hends
    exact .inl he
  | _ => cases hends

theorem finish_live {s : State} (h : Placed s) (hpos : Positive s) {slot : Slot}
    (hslot : slot ∈ s.live) : (s.finish slot.id).log = s.log ++
      [.finish slot.animation, .step (.finish slot.animation) slot.animation 1 1] := by
  obtain ⟨hused, hactive⟩ := List.mem_filter.mp hslot
  obtain ⟨i, hi⟩ := List.mem_iff_getElem?.mp hused
  have hpositive := hpos.2 slot (List.mem_of_mem_take hused)
  rw [State.used, List.getElem?_take] at hi
  obtain ⟨hcount, hi⟩ : i < s.count ∧ s.slots[i]? = some slot := by
    split at hi
    · exact ⟨by assumption, hi⟩
    · cases hi
  cases hfound : s.slotById slot.id with
  | none =>
    rw [State.slotById, if_neg (not_le.mpr hpositive), List.find?_eq_none] at hfound
    have := hfound i (List.mem_range.mpr hcount)
    simp [hi, hactive] at this
  | some j =>
    -- the slot that is found has the id, and only one has
    obtain ⟨hj, slot', hslot', hid, hactive'⟩ := slotById_spec hfound
    have hget : s.used[j]? = some slot' := by rw [State.used, List.getElem?_take, if_pos hj, hslot']
    have hlive' : slot' ∈ s.live := List.mem_filter.mpr ⟨List.mem_of_getElem? hget, hactive'⟩
    obtain rfl : slot' = slot := List.inj_on_of_nodup_map h.ids hlive' hslot hid
    rw [State.finish, hfound]
    dsimp only
    rw [hslot']
    rfl

theorem Inv.orderly {s : State} (h : Inv s) (hpos : Positive s) : Orderly s := by
  have hnodup : (ended s.log).Nodup := (List.nodup_append.mp h.counted.nodup).1
  have htwice : ∀ {e e' : Entry} {a : ℕ}, e.ends = some a → e'.ends = some a →
      ¬ [e, e'].Sublist s.log := by
    intro e e' a he he' hsub
    have hpair := hnodup.sublist (hsub.filterMap Entry.ends)
    rw [List.filterMap_cons_some he, List.filterMap_cons_some he'] at hpair
    simp at hpair
  refine ⟨h.wild, fun c c' a => htwice rfl rfl, fun c a => htwice rfl rfl,
    fun slot hslot => finish_live h.placed hpos hslot, h.traced.step, h.traced.done,
    fun hstack a ha => ?_, fun hstack a ha => ?_⟩
  · refine (h.traced.finished a ha).resolve_right fun hwaits => ?_
    simp [hstack] at hwaits
  · refine mem_ended ((h.reached a ha).resolve_right fun hwaits => ?_)
    simp [hstack] at hwaits

/-- **Every animation ends once** in every run of careful events, whatever the callbacks do. -/
theorem orderly_run (es : List Event) (h : Runs.Meets step Careful {} es) :
    Orderly (Runs.after step {} es) := by
  have hboth : Inv (Runs.after step {} es) ∧ Positive (Runs.after step {} es) :=
    Runs.invariant (I := fun s => Inv s ∧ Positive s)
      (fun s e hs he => ⟨inv_step hs.1 he, hs.2.step e⟩) ⟨inv_new, one_pos, by simp⟩ h
  exact hboth.1.orderly hboth.2

/-- Two animations: the callback of the last tick of the first cancels it, the other is finished. -/
def quietRun : List Event :=
  [.start 10 0 0 id, .tick 10, .cancel 1, .ret, .start 10 0 0 id, .finish 2, .ret, .ret]

theorem orderly_run_quiet : Orderly (Runs.after step {} quietRun) :=
  orderly_run quietRun (by decide +kernel)

/-- Three animations. The final step callback of the first cancels the third, and compacting moves
the second to the place of the first. -/
def crossedRun : List Event :=
  [.start 10 0 0 id, .start 10 0 0 id, .start 10 0 0 id, .finish 1, .cancel 3, .ret]

theorem not_orderly_crossed : ¬ ∀ es : List Event, Orderly (Runs.after step {} es) := by
  intro h
  have hdone : Entry.done (.finish 0) 1 ∈ (Runs.after step {} crossedRun).log := by decide +kernel
  exact absurd ((h crossedRun).finishDone 0 1 hdone).1 one_ne_zero

end Anim

end I3
