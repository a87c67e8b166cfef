import CrdtRedis.Zset.Insert

/-!
# Deletion from the skip list (`zslDeleteNode`)

`zslDeleteNode_core`: the node that follows the place of a search is out of every lane, the spans
over it are one less, the level goes down to the highest lane that is left, and the node itself is
still allocated until `zslFreeNode` (`zslFreeNode_core`).
-/

namespace CrdtRedis

open SkipLanes

variable {S : Type} [Zero S] {z : Zskiplist S} {L A B : List (Entry S)} {D : List ℕ} {x : Entry S}

/-! ## The lanes -/

/-- A lane without `x`, whether `x` was in it or not. -/
theorem zslUnlink_spec (hc : Core z (A ++ x :: B) D) {i r : ℕ} {u : Entry S} {us : List ℕ}
    (hi : i < z.level) (hu : Prev i (z.frame.nodes A) u r) (hg : us[i]? = some u.ptr)
    {y : Zskiplist S} (hyl : y.lev i = z.lev i) :
    ∃ y', zslUnlink x.ptr us y i = some y' ∧ y'.frame = y.frame ∧
      ∀ k, y'.lev k = if k = i
        then Function.update (z.lev i) u.ptr (some ((hop i B).shift (A.length - r)))
        else y.lev k := by
  have hl := hc.lev_prev hi hu
  rw [← hyl] at hl ⊢
  obtain ⟨y', h, hf, hl'⟩ := setLev_spec hl ((hop i B).shift (A.length - r))
  refine ⟨y', ?_, hf, hl'⟩
  by_cases hx : i < x.height
  · have hlx : y.lev i x.ptr = some (hop i B) := by
      rw [hyl]
      exact hc.link hx
    rw [hop_cons_high hx] at hl
    simp only [zslUnlink, hg, hl, Option.bind_eq_bind, Option.bind_some, Jump.shift, if_pos, hlx]
    rw [← h]
    congr 1
    simp only [Jump.shift, Jump.mk.injEq, true_and]
    ring
  · have hfw : (hop i B).forward ≠ some x.ptr := by
      intro h
      obtain ⟨b, hb, hbx⟩ := mem_of_hop_forward h
      have hn : ((A ++ x :: B).map Tower.ptr).Nodup := (List.nodup_cons.mp hc.shape.nodup).2
      rw [List.map_append, List.map_cons] at hn
      have := (List.nodup_cons.mp (List.nodup_append.mp hn).2.1).1
      exact this (List.mem_map.mpr ⟨b, hb, hbx⟩)
    rw [hop_cons_low (by omega)] at hl
    simp only [zslUnlink, hg, hl, Option.bind_eq_bind, Option.bind_some, Jump.shift, if_neg hfw]
    rw [← h]
    congr 1
    simp only [Jump.shift, Jump.mk.injEq, true_and]
    ring

theorem zslUnlink_loop (hc : Core z (A ++ x :: B) D) {us : List ℕ}
    (hus : Reaches z.frame A us) :
    ∃ z', (List.range z.level).foldlM (zslUnlink x.ptr us) z = some z' ∧
      z'.frame = z.frame ∧ (∀ i < z.level, Lane (z'.lev i) i (z.frame.nodes (A ++ B))) ∧
      (∀ i, z.level ≤ i → z'.lev i = z.lev i) ∧ ∀ i, z'.lev i x.ptr = z.lev i x.ptr := by
  have : Nonempty (Entry S) := ⟨z.frame.head⟩
  choose! u r hu hg using hus
  obtain ⟨z', h, hf, hl⟩ := foldlM_lanes (z := z) (f := zslUnlink x.ptr us)
    (G := fun i => Function.update (z.lev i) (u i).ptr (some ((hop i B).shift (A.length - r i))))
    (List.nodup_range (n := z.level)) fun i hi y hyf hyl => by
      have hi := List.mem_range.mp hi
      obtain ⟨y', h, hf, hl⟩ := zslUnlink_spec hc hi (hu i hi) (hg i hi) hyl
      exact ⟨y', h, hf.trans hyf, hl⟩
  simp only [List.mem_range] at hl
  refine ⟨z', h, hf, fun i hi => ?_, fun i hi => ?_, fun i => ?_⟩
  · rw [hl i, if_pos hi]
    refine Lane.erase (A := z.frame.nodes A) (x := x) (hc.lane i hi) (hu i hi) hc.shape.nodup ?_
      fun p hp => Function.update_of_ne hp _ _
    refine (Function.update_self ..).trans ?_
    simp [Frame.nodes]
  · rw [hl i, if_neg (by omega)]
  · rw [hl i]
    split
    · rename_i hi
      have hn := hc.shape.nodup
      rw [show z.frame.nodes (A ++ x :: B) = z.frame.nodes A ++ x :: B from rfl,
        List.map_append, List.nodup_append] at hn
      have hux := (hn.2.2 _ (List.mem_map_of_mem (hu i hi).mem) x.ptr (by simp)).symm
      exact Function.update_of_ne hux _ _
    · rfl

/-! ## The level -/

omit [Zero S] in
theorem zslLower_spec {n : ℕ} (hn : 1 ≤ n) (h : ∀ i < n, (z.lev i z.header).isSome) :
    ∃ m, zslLower z n = some m ∧ 1 ≤ m ∧ m ≤ n ∧
      (∀ i, m ≤ i → i < n → ∃ l, z.lev i z.header = some l ∧ l.forward = none) ∧
      (m = 1 ∨ ∃ l, z.lev (m - 1) z.header = some l ∧ l.forward ≠ none) := by
  induction n with
  | zero => omega
  | succ n ih =>
    cases n with
    | zero => exact ⟨1, rfl, le_rfl, le_rfl, fun i h₁ h₂ => by omega, .inl rfl⟩
    | succ n =>
      obtain ⟨l, hl⟩ := Option.isSome_iff_exists.mp (h (n + 1) (by omega))
      by_cases hf : l.forward = none
      · obtain ⟨m, hm, h₁, hle, hnone, htop⟩ := ih (by omega) fun i hi => h i (by omega)
        refine ⟨m, by simp [zslLower, hl, hf, hm], h₁, by omega, fun i hi hi' => ?_, htop⟩
        by_cases hin : i = n + 1
        · exact ⟨l, hin ▸ hl, hf⟩
        · exact hnone i hi (by omega)
      · exact ⟨n + 2, by simp [zslLower, hl, hf], by omega, le_rfl, fun i hi hi' => by omega,
          .inr ⟨l, hl, hf⟩⟩

/-- The level is that of the highest node. -/
def Tight (z : Zskiplist S) (L : List (Entry S)) : Prop :=
  z.level = 1 ∨ ∃ e ∈ L, e.height = z.level

/-! ## The nodes -/

/-- The nodes without one, that is still allocated. -/
theorem Shape.erase {f f' : Frame S} (hs : Shape f (A ++ x :: B) D)
    (hheader : f'.header = f.header) (hbrk : f'.brk = f.brk) (hbody : f'.body = f.body)
    (hlength : f'.length = f.length - 1) (hlevel : 1 ≤ f'.level ∧ f'.level ≤ f.level)
    (hheight : ∀ e ∈ A ++ B, e.height ≤ f'.level)
    (hback : f'.back = (f.backTo (B.head?.map Tower.ptr) (lastPtr none A)).back)
    (htail : f'.tail = (f.backTo (B.head?.map Tower.ptr) (lastPtr none A)).tail) :
    Shape f' (A ++ B) (x.ptr :: D) := by
  have hp := f.nodes_perm A B x
  have hnodes := nodes_congr hheader (A ++ B)
  have hsub : ∀ e ∈ A ++ B, e ∈ A ++ x :: B := fun e he =>
    List.perm_middle.mem_iff.mpr (List.mem_cons_of_mem _ he)
  obtain ⟨hx, hnd⟩ := List.nodup_cons.mp ((hp.map Tower.ptr).nodup_iff.mp hs.nodup)
  have hn : ((A ++ x :: B).map Tower.ptr).Nodup := (List.nodup_cons.mp hs.nodup).2
  have hbx : f.back x.ptr = some (lastPtr none A) := (back_append.mp hs.back).2.1
  have hbackB : ∀ p, (∀ b ∈ B.head?, p ≠ b.ptr) → f'.back p = f.back p := fun p hp => by
    rw [hback]
    cases B with
    | nil => rfl
    | cons b B => exact Function.update_of_ne (hp b rfl) _ _
  exact
    { head := by
        rw [hheader, hbody]
        exact hs.head
      headBack := by
        rw [hheader, hbackB f.header, hs.headBack]
        intro b hb
        exact (hs.ptr_ne_header (by simp [List.mem_of_mem_head? hb])).symm
      body := fun e he => by
        rw [hbody]
        exact hs.body e (hsub e he)
      nodup := by
        rw [hnodes]
        exact hnd
      height := fun e he => ⟨(hs.height e (hsub e he)).1, hheight e he⟩
      level := ⟨hlevel.1, hlevel.2.trans hs.level.2⟩
      back := hs.back.erase hn (fun b hb => by
        rw [hbx, hback]
        cases B with
        | nil => cases hb
        | cons c B =>
          obtain rfl : c = b := by simpa using hb
          exact Function.update_self ..) hbackB
      tail := by
        rw [htail]
        cases B with
        | nil => simp [Frame.backTo]
        | cons b B =>
          change f.tail = _
          rw [hs.tail]
          simp
      length := by
        rw [hlength, hs.length]
        simp
      owned := fun p => by
        rw [hbody, hs.owned, hnodes, (hp.map Tower.ptr).mem_iff, List.map_cons, List.mem_cons,
          List.mem_cons]
        tauto
      detached := fun p hp' h => by
        rw [hnodes] at h
        rcases List.mem_cons.mp hp' with rfl | hp'
        · exact hx h
        · exact hs.detached p hp' ((hp.map Tower.ptr).mem_iff.mpr (List.mem_cons_of_mem _ h))
      fresh := fun p hp' => by
        rw [hbody]
        exact hs.fresh p (hbrk ▸ hp') }

/-- `zslDeleteNode` takes out the node after the place of the search. -/
theorem zslDeleteNode_core (hc : Core z (A ++ x :: B) D) {us : List ℕ}
    (hus : Reaches z.frame A us) :
    ∃ z', zslDeleteNode z x.ptr us = some z' ∧ Core z' (A ++ B) (x.ptr :: D) ∧
      Tight z' (A ++ B) ∧ z'.header = z.header ∧ z'.level ≤ z.level := by
  obtain ⟨z₁, h₁, hf₁, hlane, htop, hlx⟩ := zslUnlink_loop hc hus
  have hbody₁ : ∀ p, z₁.frame.body p = z.frame.body p := fun p => by rw [hf₁]
  obtain ⟨n, hn, -⟩ := heap_of_body ((hbody₁ x.ptr).trans (hc.shape.body x (by simp)))
  have hback : n.backward = lastPtr none A := by
    have := (back_append.mp hc.shape.back).2.1
    rw [← hf₁, frame_back hn] at this
    exact Option.some.inj this
  have hlev₁ : z₁.lev 0 x.ptr = some (hop 0 B) := by
    rw [hlx 0]
    exact hc.link (hc.shape.height x (by simp)).1
  have hfw := hop_zero (l := B) fun e he => (hc.shape.height e (by simp [he])).1
  obtain ⟨z₂, h₂, hl₂, hf₂⟩ := zslBackTo_spec (z := z₁) (p := B.head?.map Tower.ptr) (fun q hq => by
    obtain ⟨b, hb, rfl⟩ := Option.map_eq_some_iff.mp hq
    have hb := List.mem_of_mem_head? hb
    obtain ⟨m, hm, -⟩ := heap_of_body ((hbody₁ b.ptr).trans (hc.shape.body b (by simp [hb])))
    rw [hm]
    rfl) (lastPtr none A)
  rw [hf₁] at hf₂
  have hhd₂ : z₂.header = z.header := (congrArg Frame.header hf₂).trans (Frame.backTo_header ..)
  have hlev₂ : z₂.level = z.level := (congrArg Frame.level hf₂).trans (Frame.backTo_level ..)
  have hhead : ∀ i < z.level, z₂.lev i z₂.header = some (hop i (A ++ B)) := fun i hi => by
    rw [hl₂, hhd₂]
    exact (hlane i hi).1 (hi.trans_le hc.shape.level.2)
  obtain ⟨m, hm, h₁m, hmle, hnone, htight⟩ := zslLower_spec (z := z₂) (n := z₂.level)
    (by rw [hlev₂]; exact hc.shape.level.1) fun i hi => by rw [hhead i (hlev₂ ▸ hi)]; rfl
  rw [hlev₂] at hmle hnone
  -- No node is in a lane that the header has no link in.
  have hheight : ∀ e ∈ A ++ B, e.height ≤ m := fun e he => by
    rcases hmle.eq_or_lt with rfl | hlt
    · exact (hc.shape.height e (List.perm_middle.mem_iff.mpr (List.mem_cons_of_mem _ he))).2
    · obtain ⟨l, hl, hnl⟩ := hnone m le_rfl hlt
      rw [hhead m hlt] at hl
      cases hl
      exact hop_forward_eq_none.mp hnl e he
  refine ⟨{ z₂ with level := m, length := z₂.length - 1 }, ?_, ⟨?_, fun i hi => ?_,
    fun i hi hi' => ?_⟩, ?_, hhd₂, hmle⟩
  · simp only [zslDeleteNode, h₁, hn, hlev₁, Option.bind_eq_bind, Option.bind_some, hfw, hback, h₂,
      hm]
  · have hback₂ : z₂.frame.back = _ := congrArg Frame.back hf₂
    have htail₂ : z₂.frame.tail = _ := congrArg Frame.tail hf₂
    refine hc.shape.erase hhd₂ ?_ ?_ ?_ ⟨h₁m, hmle⟩ hheight hback₂ htail₂
    · exact (congrArg Frame.brk hf₂).trans (Frame.backTo_brk ..)
    · exact (congrArg Frame.body hf₂).trans (Frame.backTo_body ..)
    · exact congrArg (· - 1) ((congrArg Frame.length hf₂).trans (Frame.backTo_length ..))
  · rw [nodes_congr (f := z.frame) hhd₂]
    change Lane (z₂.lev i) i _
    rw [hl₂]
    exact hlane i (lt_of_lt_of_le hi hmle)
  · change ∃ l, z₂.lev i z₂.header = some l ∧ _
    by_cases hiz : i < z.level
    · exact hnone i hi hiz
    · rw [hl₂, hhd₂, htop i (by omega)]
      exact hc.top i (by omega) hi'
  · rcases htight with h | ⟨l, hl, hsome⟩
    · exact .inl h
    · right
      rw [hhead (m - 1) (by omega)] at hl
      cases hl
      have := mt hop_forward_eq_none.mpr hsome
      push Not at this
      obtain ⟨e, he, hlt⟩ := this
      exact ⟨e, he, by have := hheight e he; change e.height = m; omega⟩

/-- `zslFreeNode` of a node that is out of the list. -/
theorem zslFreeNode_core {p : ℕ} (hc : Core z L (p :: D)) (hD : p ∉ D) :
    ∃ z', zslFreeNode z p = some z' ∧ Core z' L D ∧ z'.level = z.level ∧
      z'.header = z.header := by
  have hs := hc.shape
  have hp : ∀ e ∈ z.frame.nodes L, e.ptr ≠ p := fun e he h =>
    hs.detached p (by simp) (h ▸ List.mem_map_of_mem he)
  have hsome := (hs.owned p).mpr (.inr (by simp))
  obtain ⟨n, hn, -⟩ := heap_of_body (Option.some_get hsome).symm
  set z' : Zskiplist S := { z with heap := Function.update z.heap p none } with hz'
  have hbody : z'.frame.body = Function.update z.frame.body p none := by
    funext q
    by_cases hq : q = p <;> simp [hz', Zskiplist.frame, hq]
  have hback : ∀ q, q ≠ p → z'.frame.back q = z.frame.back q := fun q hq => by
    simp [hz', Zskiplist.frame, hq]
  have hlev : ∀ i q, q ≠ p → z'.lev i q = z.lev i q := fun i q hq => by
    simp [hz', Zskiplist.lev, hq]
  have hhp : z.header ≠ p := hp z.frame.head (by simp [Frame.nodes])
  refine ⟨z', by simp [zslFreeNode, hn, hz'], ⟨?_, fun i hi => ?_, fun i hi hi' => ?_⟩, rfl,
    rfl⟩
  · exact
      { head := by
          rw [hbody]
          exact (Function.update_of_ne hhp _ _).trans hs.head
        headBack := (hback _ hhp).trans hs.headBack
        body := fun e he => by
          rw [hbody, Function.update_of_ne (hp e (List.mem_cons_of_mem _ he))]
          exact hs.body e he
        nodup := hs.nodup
        height := hs.height
        level := hs.level
        back := hs.back.congr fun e he => hback _ (hp e (List.mem_cons_of_mem _ he))
        tail := hs.tail
        length := hs.length
        owned := fun q => by
          have := hs.owned q
          rw [List.mem_cons] at this
          by_cases hq : q = p
          · subst hq
            have hq : q ∉ (z'.frame.nodes L).map Tower.ptr := hs.detached q (by simp)
            simp only [hbody, Function.update_self, Option.isSome_none, hq, hD, or_self,
              Bool.false_eq_true]
          · rw [hbody, Function.update_of_ne hq, this]
            simp only [hq, false_or]
            exact Iff.rfl
        detached := fun q hq => hs.detached q (by simp [hq])
        fresh := fun q hq => by
          rw [hbody, Function.update_apply]
          split
          · rfl
          · exact hs.fresh q hq }
  · exact (hc.lane i hi).congr fun e he _ => hlev i _ (hp e he)
  · rw [show z'.header = z.header from rfl, hlev i _ hhp]
    exact hc.top i hi hi'

end CrdtRedis
