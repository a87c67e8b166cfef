import CrdtRedis.Zset.Skiplist

/-!
# Insertion into the skip list (`zslInsert`)

`zslInsert_core`: between the entries below the key and the others, with any level that
`zslRandomLevel` can give, `zslInsert` puts one entry, and every lane, span and link back is right
again. The proof follows the code: the search, the levels that are new (`zslRaise_spec`), the new
node, the lanes it is in (`zslLink_spec`) and those it is not in (`zslBump_spec`), the links back.
-/

namespace CrdtRedis

open SkipLanes

variable {S : Type}

theorem zslRandomLevel_pos (random : List ℕ) : 1 ≤ zslRandomLevel random := by
  unfold zslRandomLevel zskiplistMaxlevel
  dsimp only
  split <;> omega

theorem zslRandomLevel_le (random : List ℕ) : zslRandomLevel random ≤ zskiplistMaxlevel := by
  unfold zslRandomLevel
  dsimp only
  split <;> omega

section Lanes

variable {z y : Zskiplist S} {us : List (ℕ × ℤ)} {i x u : ℕ} {l m : ZskiplistLevel} {r r₀ : ℤ}

/-- A lane with the node `x` behind `u`, whose link was `l`. -/
def linked (lane : ℕ → Option ZskiplistLevel) (x u : ℕ) (l : ZskiplistLevel) (d : ℤ) :
    ℕ → Option ZskiplistLevel :=
  Function.update (Function.update lane x (some ⟨l.forward, l.span - d⟩)) u (some ⟨some x, d + 1⟩)

theorem zslLink_spec {u₀ : ℕ} (h₀ : us[0]? = some (u₀, r₀)) (hu : us[i]? = some (u, r))
    (hl : z.lev i u = some l) (hm : z.lev i x = some m) (hux : u ≠ x) :
    ∃ z', zslLink x us z i = some z' ∧ z'.frame = z.frame ∧
      ∀ k, z'.lev k = if k = i then linked (z.lev i) x u l (r₀ - r) else z.lev k := by
  obtain ⟨z₁, h₁, hf₁, hl₁⟩ := setLev_spec hm ⟨l.forward, l.span - (r₀ - r)⟩
  have hl' : z₁.lev i u = some l := by simp [hl₁, hux, hl]
  obtain ⟨z₂, h₂, hf₂, hl₂⟩ := setLev_spec hl' ⟨some x, r₀ - r + 1⟩
  refine ⟨z₂, by simp [zslLink, h₀, hu, hl, h₁, h₂], hf₂.trans hf₁, fun k => ?_⟩
  by_cases hk : k = i
  · subst hk
    simp [hl₂, hl₁, linked]
  · simp [hl₂, hl₁, hk]

theorem zslBump_spec (hu : us[i]? = some (u, r)) (hl : z.lev i u = some l) :
    ∃ z', zslBump us z i = some z' ∧ z'.frame = z.frame ∧
      ∀ k, z'.lev k = if k = i then Function.update (z.lev i) u (some (l.shift 1))
        else z.lev k := by
  obtain ⟨z', h, hf, hl'⟩ := setLev_spec hl (l.shift 1)
  refine ⟨z', ?_, hf, hl'⟩
  simp only [zslBump, hu, hl, Option.bind_eq_bind, Option.bind_some, ← h, Jump.shift, add_comm]

end Lanes

variable [Zero S] {z : Zskiplist S} {L A B : List (Entry S)} {D : List ℕ}

theorem nodes_congr {f f' : Frame S} (h : f'.header = f.header) (L : List (Entry S)) :
    f'.nodes L = f.nodes L := by
  simp [Frame.nodes, Frame.head, h]

/-! ## New levels -/

/-- The lanes after the loop over the new levels. -/
theorem zslRaiseLane_loop (hc : Core z L D) {level : ℕ} (hle : level ≤ zskiplistMaxlevel) :
    ∃ z', (List.range' z.level (level - z.level)).foldlM zslRaiseLane z = some z' ∧
      z'.frame = z.frame ∧
      ∀ i, z'.lev i = if z.level ≤ i ∧ i < level
        then Function.update (z.lev i) z.header (some ⟨none, L.length⟩) else z.lev i := by
  obtain ⟨z', h, hf, hl⟩ := foldlM_lanes (z := z) (f := zslRaiseLane)
    (G := fun i => Function.update (z.lev i) z.header (some ⟨none, L.length⟩))
    (List.nodup_range' (s := z.level) (n := level - z.level)) fun i hi y hyf hyl => by
      obtain ⟨hi, hi'⟩ := List.mem_range'_1.mp hi
      obtain ⟨l, hzl, hfw⟩ := hc.top i hi (by omega)
      have hhd : y.header = z.header := congrArg Frame.header hyf
      have hlen : y.length = L.length := (congrArg Frame.length hyf).trans hc.shape.length
      rw [← hyl, ← hhd] at hzl
      obtain ⟨y', h, hf, hl⟩ := setLev_spec hzl { l with span := y.length }
      refine ⟨y', by simp [zslRaiseLane, hzl, h], hf.trans hyf, fun k => ?_⟩
      rw [hl k, hyl, hhd, hlen, ← hfw]
  refine ⟨z', h, hf, fun i => ?_⟩
  rw [hl i]
  have : i ∈ List.range' z.level (level - z.level) ↔ z.level ≤ i ∧ i < level := by
    rw [List.mem_range'_1]
    omega
  simp only [this]

/-- The levels above the list lead from the header past all entries. -/
theorem zslRaise_core (hc : Core z L D) {z' : Zskiplist S} {level : ℕ} (hlt : z.level < level)
    (hle : level ≤ zskiplistMaxlevel) (hf : z'.frame = { z.frame with level := level })
    (hl : ∀ i, z'.lev i = if z.level ≤ i ∧ i < level
      then Function.update (z.lev i) z.header (some ⟨none, L.length⟩) else z.lev i) :
    Core z' L D := by
  have hlev : z'.level = level := congrArg Frame.level hf
  have hhd : z'.header = z.header := congrArg Frame.header hf
  have hlow : ∀ i, z.level ≤ i → ∀ e ∈ L, e.height ≤ i := fun i hi e he =>
    (hc.shape.height e he).2.trans hi
  refine ⟨?_, fun i hi => ?_, fun i hi hi' => ?_⟩
  · rw [hf]
    exact { hc.shape with
      height := fun e he => ⟨(hc.shape.height e he).1, (hc.shape.height e he).2.trans hlt.le⟩
      level := ⟨hc.shape.level.1.trans hlt.le, hle⟩ }
  · -- A lane that was there has its links; a new one only that of the header.
    rw [nodes_congr (f := z.frame) hhd, hl i]
    by_cases hiz : i < z.level
    · rw [if_neg (by omega)]
      exact hc.lane i hiz
    · rw [if_pos (by omega)]
      refine ⟨fun _ => ?_, lane_low (hlow i (by omega))⟩
      rw [hop_low (hlow i (by omega))]
      exact Function.update_self ..
  · rw [hl i, if_neg (by omega), hhd]
    exact hc.top i (by omega) hi'

theorem zslRaise_spec (hc : Core z (A ++ B) D) {us : List (ℕ × ℤ)}
    (hus : Updates z.frame A z.level us) {level : ℕ} (hle : level ≤ zskiplistMaxlevel) :
    ∃ z' us', zslRaise z us level = some (z', us') ∧ Core z' (A ++ B) D ∧
      z'.frame = { z.frame with level := max z.level level } ∧
      Updates z'.frame A z'.level us' := by
  by_cases hlt : z.level < level
  swap
  · refine ⟨z, us, by rw [zslRaise, if_neg hlt], hc, ?_, hus⟩
    rw [max_eq_left (by omega)]
    rfl
  obtain ⟨z', h, hf, hl⟩ := zslRaiseLane_loop hc hle
  have hf' : ({ z' with level := level } : Zskiplist S).frame =
      { z.frame with level := level } := by
    rw [← hf]
    rfl
  have hc' := zslRaise_core hc hlt hle hf' hl
  refine ⟨{ z' with level := level }, us ++ List.replicate (level - z.level) (z.header, 0), ?_,
    hc', ?_, ?_, fun i hi => ?_⟩
  · rw [zslRaise, if_pos hlt, h]
    rfl
  · rw [hf', max_eq_right hlt.le]
  · change _ = level
    rw [List.length_append, List.length_replicate, hus.1]
    omega
  · change i < level at hi
    rw [nodes_congr (f := z.frame) (show z'.header = z.header from congrArg Frame.header hf)]
    by_cases hiz : i < z.level
    · obtain ⟨u, r, hu, hg⟩ := hus.2 i hiz
      exact ⟨u, r, hu, by rw [List.getElem?_append_left (by rw [hus.1]; exact hiz), hg]⟩
    · refine ⟨z.frame.head, 0, prev_cons_low (hi.trans_le hle) fun a ha => ?_, ?_⟩
      · have := (hc.shape.height a (by simp [ha])).2
        exact this.trans (by change z.level ≤ i; omega)
      · have hk : i - us.length < level - z.level := by rw [hus.1]; omega
        rw [List.getElem?_append_right (by rw [hus.1]; omega), List.getElem?_replicate, if_pos hk]
        rfl

/-! ## The new node in its lanes -/

omit [Zero S] in
theorem hop_zero {l : List (Entry S)} (h : ∀ e ∈ l, 1 ≤ e.height) :
    (hop 0 l).forward = l.head?.map Tower.ptr := by
  cases l with
  | nil => rfl
  | cons a l => rw [hop_cons_high (h a (by simp))]; rfl

/-- In the lowest lane the search ends right before the place. -/
theorem Updates.zero {f : Frame S} {n : ℕ} {us : List (ℕ × ℤ)} (h : Updates f A n us) (hn : 0 < n)
    (hA : ∀ e ∈ A, 1 ≤ e.height) :
    ∃ u, us[0]? = some (u.ptr, (A.length : ℤ)) ∧ (f.nodes A).getLast? = some u := by
  obtain ⟨u, r, hu, hg⟩ := h.2 0 hn
  obtain ⟨hlast, hr⟩ := hu.last fun a ha => hA a ha
  obtain rfl : r = A.length := by simpa [Frame.nodes] using hr
  exact ⟨u, hg, hlast⟩

theorem Core.lev_prev (hc : Core z (A ++ B) D) {i r : ℕ} {u : Entry S} (hi : i < z.level)
    (hu : Prev i (z.frame.nodes A) u r) :
    z.lev i u.ptr = some ((hop i B).shift (A.length - r)) := by
  have h : Lane (z.lev i) i (z.frame.nodes A ++ B) := hc.lane i hi
  rw [h.link_prev hu]
  congr 2
  simp [Frame.nodes]

theorem Core.ptr_ne_brk (hc : Core z L D) {e : Entry S} (he : e ∈ z.frame.nodes L) :
    e.ptr ≠ z.brk := by
  intro h
  have h₁ := (hc.shape.owned e.ptr).mpr (.inl (List.mem_map_of_mem he))
  rw [hc.shape.fresh e.ptr (by rw [h]; rfl)] at h₁
  cases h₁

section Node

variable {level : ℕ} {score : S} {ele : Option Sds}

omit [Zero S] in
theorem zslCreateNode_lev (i : ℕ) :
    (zslCreateNode z level score ele).1.lev i =
      Function.update (z.lev i) z.brk (if i < level then some ⟨none, 0⟩ else none) := by
  have := lev_put (z := z) (p := z.brk) ⟨ele, score, none, List.replicate level ⟨none, 0⟩⟩ i
  rwa [List.getElem?_replicate] at this

omit [Zero S] in
theorem zslCreateNode_frame :
    (zslCreateNode z level score ele).1.frame = { z.frame with
      brk := z.brk + 1
      body := Function.update z.frame.body z.brk (some (ele, score, level))
      back := Function.update z.frame.back z.brk (some none) } := by
  have := frame_put (z := z) (p := z.brk) ⟨ele, score, none, List.replicate level ⟨none, 0⟩⟩
  rw [List.length_replicate] at this
  calc (zslCreateNode z level score ele).1.frame
      = { (z.put z.brk ⟨ele, score, none, List.replicate level ⟨none, 0⟩⟩).frame with
          brk := z.brk + 1 } := rfl
    _ = _ := by rw [this]

theorem Core.nodup_insert (hc : Core z (A ++ B) D) (level : ℕ) (key : Key S) :
    ((z.frame.nodes (A ++ ⟨z.brk, level, key⟩ :: B)).map Tower.ptr).Nodup := by
  have hp := z.frame.nodes_perm A B ⟨z.brk, level, key⟩
  rw [(hp.map Tower.ptr).nodup_iff, List.map_cons, List.nodup_cons]
  refine ⟨fun h => ?_, hc.shape.nodup⟩
  obtain ⟨e, he, hp⟩ := List.mem_map.mp h
  exact hc.ptr_ne_brk he hp

/-- A lane of the new node. -/
theorem Core.linked_lane (hc : Core z (A ++ B) D) {i r : ℕ} {u : Entry S} (hi : i < z.level)
    (hu : Prev i (z.frame.nodes A) u r) (hx : i < level) (key : Key S) :
    Lane (linked ((zslCreateNode z level score ele).1.lev i) z.brk u.ptr
        ((hop i B).shift (A.length - r)) (A.length - r)) i
      (z.frame.nodes (A ++ ⟨z.brk, level, key⟩ :: B)) := by
  have hne := hc.ptr_ne_brk (e := u) (List.mem_append_left B hu.mem)
  refine Lane.insert_high (A := z.frame.nodes A) (hc.lane i hi) hu (hc.nodup_insert level key) hx
    ?_ ?_ fun p hpu hpx => ?_
  · rw [linked, Function.update_self]
    congr 2
    simp [Frame.nodes]
    ring
  · rw [linked, Function.update_of_ne hne.symm, Function.update_self]
    simp
  · rw [linked, Function.update_of_ne hpu, Function.update_of_ne hpx, zslCreateNode_lev,
      Function.update_of_ne hpx]

/-- A lane above the new node. -/
theorem Core.bumped_lane (hc : Core z (A ++ B) D) {i r : ℕ} {u : Entry S} (hi : i < z.level)
    (hu : Prev i (z.frame.nodes A) u r) (hx : level ≤ i) (key : Key S) :
    Lane (Function.update ((zslCreateNode z level score ele).1.lev i) u.ptr
        (some (((hop i B).shift (A.length - r)).shift 1))) i
      (z.frame.nodes (A ++ ⟨z.brk, level, key⟩ :: B)) := by
  refine Lane.insert_low (A := z.frame.nodes A) (hc.lane i hi) hu (hc.nodup_insert level key) hx
    ?_ fun p hpu hpx => ?_
  · rw [Function.update_self, hc.lev_prev hi hu]
    rfl
  · rw [Function.update_of_ne hpu, zslCreateNode_lev, Function.update_of_ne hpx]

variable (score ele) in
/-- The two loops over the lanes: those of the new node, and those above it. -/
theorem zslLink_loops (hc : Core z (A ++ B) D) {us : List (ℕ × ℤ)}
    (hus : Updates z.frame A z.level us) (h₁ : 1 ≤ level) (hle : level ≤ z.level) (key : Key S) :
    let z₀ := (zslCreateNode z level score ele).1
    ∃ z₁ z₂, (List.range level).foldlM (zslLink z.brk us) z₀ = some z₁ ∧
      (List.range' level (z₁.level - level)).foldlM (zslBump us) z₁ = some z₂ ∧
      z₂.frame = z₀.frame ∧
      (∀ i < z.level, Lane (z₂.lev i) i (z.frame.nodes (A ++ ⟨z.brk, level, key⟩ :: B))) ∧
      ∀ i, z.level ≤ i → z₂.lev i = z₀.lev i := by
  intro z₀
  obtain ⟨u₀, hu₀, -⟩ := hus.zero (by omega) fun e he => (hc.shape.height e (by simp [he])).1
  have hlev₀ : ∀ {i r : ℕ} {u : Entry S}, i < z.level → Prev i (z.frame.nodes A) u r →
      u.ptr ≠ z.brk ∧ z₀.lev i u.ptr = some ((hop i B).shift (A.length - r)) := by
    intro i r u hi hu
    have hne := hc.ptr_ne_brk (e := u) (List.mem_append_left B hu.mem)
    refine ⟨hne, ?_⟩
    rw [zslCreateNode_lev, Function.update_of_ne hne, hc.lev_prev hi hu]
  -- The lanes of the node, then those above it.
  obtain ⟨z₁, hz₁, hf₁, hl₁⟩ := foldlM_lanes (z := z₀) (f := zslLink z.brk us)
    (G := fun i => (us[i]?).elim (z₀.lev i) fun u =>
      linked (z₀.lev i) z.brk u.1 ((hop i B).shift (A.length - u.2)) (A.length - u.2))
    (List.nodup_range (n := level)) fun i hi y hyf hyl => by
      have hi := List.mem_range.mp hi
      obtain ⟨u, r, hu, hg⟩ := hus.2 i (by omega)
      obtain ⟨hne, hl⟩ := hlev₀ (by omega) hu
      have hx : z₀.lev i z.brk = some ⟨none, 0⟩ := by
        rw [zslCreateNode_lev, Function.update_self, if_pos hi]
      rw [← hyl] at hl hx
      obtain ⟨y', h, hf, hl'⟩ := zslLink_spec hu₀ hg hl hx hne
      exact ⟨y', h, hf.trans hyf, by simpa [hg, hyl] using hl'⟩
  have hlev : z₁.level = z.level := congrArg Frame.level hf₁
  obtain ⟨z₂, hz₂, hf₂, hl₂⟩ := foldlM_lanes (z := z₁) (f := zslBump us)
    (G := fun i => (us[i]?).elim (z₀.lev i) fun u =>
      Function.update (z₀.lev i) u.1 (some (((hop i B).shift (A.length - u.2)).shift 1)))
    (List.nodup_range' (s := level) (n := z₁.level - level)) fun i hi y hyf hyl => by
      obtain ⟨hi, hi'⟩ := List.mem_range'_1.mp hi
      have hl₁i : z₁.lev i = z₀.lev i := by
        rw [hl₁ i, if_neg (by simp; omega)]
      obtain ⟨u, r, hu, hg⟩ := hus.2 i (by omega)
      obtain ⟨-, hl⟩ := hlev₀ (by omega) hu
      rw [← hl₁i, ← hyl] at hl
      obtain ⟨y', h, hf, hl'⟩ := zslBump_spec hg hl
      exact ⟨y', h, hf.trans hyf, by simpa [hg, hyl, hl₁i] using hl'⟩
  refine ⟨z₁, z₂, hz₁, hz₂, hf₂.trans hf₁, fun i hi => ?_, fun i hi => ?_⟩
  · obtain ⟨u, r, hu, hg⟩ := hus.2 i hi
    by_cases hil : i < level
    · rw [hl₂, if_neg (by rw [List.mem_range'_1]; omega), hl₁, if_pos (List.mem_range.mpr hil), hg]
      exact hc.linked_lane hi hu hil key
    · rw [hl₂, if_pos (by rw [List.mem_range'_1]; omega), hg]
      exact hc.bumped_lane hi hu (by omega) key
  · rw [hl₂, if_neg (by rw [List.mem_range'_1]; omega), hl₁, if_neg (by rw [List.mem_range]; omega)]

end Node

/-! ## The links back -/

theorem Shape.ptr_ne_header {f : Frame S} (hs : Shape f L D) {e : Entry S} (he : e ∈ L) :
    e.ptr ≠ f.header := by
  have hn := hs.nodup
  rw [Frame.nodes, List.map_cons, List.nodup_cons] at hn
  intro h
  exact hn.1 (List.mem_map.mpr ⟨e, he, h⟩)

/-- `update[0]`, or no node where that is the header. -/
theorem Shape.backward {f : Frame S} (hs : Shape f (A ++ B) D) {u : Entry S}
    (hu : (f.nodes A).getLast? = some u) :
    (if u.ptr = f.header then none else some u.ptr) = lastPtr none A := by
  rcases List.eq_nil_or_concat A with rfl | ⟨A', e, rfl⟩
  · obtain rfl : f.head = u := by simpa [Frame.nodes] using hu
    exact if_pos rfl
  · obtain rfl : e = u := by
      rw [Frame.nodes, List.concat_eq_append, ← List.cons_append, List.getLast?_concat] at hu
      exact Option.some.inj hu
    rw [if_neg (hs.ptr_ne_header (by simp))]
    simp

/-- The nodes with a new one. -/
theorem Shape.insert {f f' : Frame S} (hs : Shape f (A ++ B) D) {x : Entry S}
    (hx : x.ptr = f.brk) (hh : 1 ≤ x.height ∧ x.height ≤ f.level)
    (hn : ((f.nodes (A ++ x :: B)).map Tower.ptr).Nodup)
    (hheader : f'.header = f.header) (hlevel : f'.level = f.level) (hbrk : f'.brk = f.brk + 1)
    (hlength : f'.length = f.length + 1)
    (hbody : f'.body = Function.update f.body x.ptr
      (some (some (ofLex x.key).2, (ofLex x.key).1, x.height)))
    (hheadBack : f'.back f.header = some none) (hback : Back f'.back none (A ++ x :: B))
    (htail : f'.tail = lastPtr none (A ++ x :: B)) :
    Shape f' (A ++ x :: B) D := by
  have hnodes := nodes_congr hheader (A ++ x :: B)
  have hp := f.nodes_perm A B x
  have hxm : x.ptr ∉ (f.nodes (A ++ B)).map Tower.ptr := by
    have := (hp.map Tower.ptr).nodup_iff.mp hn
    exact (List.nodup_cons.mp this).1
  have hmem : ∀ p, p ∈ (f.nodes (A ++ x :: B)).map Tower.ptr ↔
      p = x.ptr ∨ p ∈ (f.nodes (A ++ B)).map Tower.ptr := fun p => by
    rw [(hp.map Tower.ptr).mem_iff, List.map_cons, List.mem_cons]
  have hne : ∀ e ∈ f.nodes (A ++ B), e.ptr ≠ x.ptr := fun e he h =>
    hxm (h ▸ List.mem_map_of_mem he)
  refine ⟨?_, by rw [hheader]; exact hheadBack, fun e he => ?_, by rw [hnodes]; exact hn,
    fun e he => ?_, by rw [hlevel]; exact hs.level, hback, htail, ?_, fun p => ?_, fun p hp' => ?_,
    fun p hp' => ?_⟩
  · have hxh : f.header ≠ x.ptr := hne f.head (by simp [Frame.nodes])
    rw [hheader, hbody, Function.update_of_ne hxh]
    exact hs.head
  · rw [hbody]
    rcases List.mem_cons.mp (List.perm_middle.mem_iff.mp he) with rfl | he
    · exact Function.update_self ..
    · rw [Function.update_of_ne (hne e (List.mem_cons_of_mem _ he))]
      exact hs.body e he
  · rw [hlevel]
    rcases List.mem_cons.mp (List.perm_middle.mem_iff.mp he) with rfl | he
    · exact hh
    · exact hs.height e he
  · rw [hlength, hs.length]
    simp
    omega
  · rw [hbody, hnodes, hmem, or_assoc, ← hs.owned]
    by_cases h : p = x.ptr <;> simp [h]
  · rw [hnodes, hmem, not_or]
    refine ⟨?_, hs.detached p hp'⟩
    rintro rfl
    have := (hs.owned x.ptr).mpr (.inr hp')
    rw [hs.fresh x.ptr hx.ge] at this
    cases this
  · rw [hbrk] at hp'
    rw [hbody, Function.update_of_ne (by omega)]
    exact hs.fresh p (by omega)

/-! ## The whole insertion -/

theorem Core.isSome_heap (hc : Core z L D) {e : Entry S} (he : e ∈ z.frame.nodes L) :
    (z.heap e.ptr).isSome := by
  have := (hc.shape.owned e.ptr).mpr (.inl (List.mem_map_of_mem he))
  simpa [Zskiplist.frame] using this

/-- The links back and the tail after an insertion. -/
theorem Shape.backTo_insert {f : Frame S} (hs : Shape f (A ++ B) D) {x : Entry S}
    (hn : ((f.nodes (A ++ x :: B)).map Tower.ptr).Nodup) {f₁ : Frame S} (ht : f₁.tail = f.tail)
    (hx : f₁.back x.ptr = some (lastPtr none A))
    (hback : ∀ p, p ≠ x.ptr → f₁.back p = f.back p) :
    let f' := f₁.backTo (B.head?.map Tower.ptr) (some x.ptr)
    f'.back f.header = some none ∧ Back f'.back none (A ++ x :: B) ∧
      f'.tail = lastPtr none (A ++ x :: B) := by
  intro f'
  have hn' : ((A ++ x :: B).map Tower.ptr).Nodup := (List.nodup_cons.mp hn).2
  have hhx : f.header ≠ x.ptr := by
    intro h
    exact (List.nodup_cons.mp hn).1 (List.mem_map.mpr ⟨x, by simp, h.symm⟩)
  cases B with
  | nil =>
    refine ⟨by rw [← hs.headBack]; exact hback _ hhx, ?_, by simp [f', Frame.backTo]⟩
    exact hs.back.insert hn' hx (by simp) fun p hp _ => hback p hp
  | cons b B =>
    have hbx : x.ptr ≠ b.ptr := by
      have := (List.nodup_cons.mp (List.nodup_append.mp (by simpa using hn')).2.1).1
      intro h
      exact this (by simp [h])
    have hf' : f'.back = Function.update f₁.back b.ptr (some (some x.ptr)) := rfl
    refine ⟨?_, hs.back.insert hn' ?_ ?_ fun p hp hpb => ?_, ?_⟩
    · rw [hf', Function.update_of_ne (hs.ptr_ne_header (by simp)).symm, hback _ hhx]
      exact hs.headBack
    · rw [hf', Function.update_of_ne hbx, hx]
    · intro c hc
      obtain rfl : b = c := by simpa using hc
      rw [hf', Function.update_self]
    · rw [hf', Function.update_of_ne (hpb b rfl), hback p hp]
    · change f₁.tail = _
      rw [ht, hs.tail]
      simp

/-- The end of `zslInsert`, once the lanes are linked. -/
theorem zslInsert_end (hc : Core z (A ++ B) D) {level : ℕ} (h₁ : 1 ≤ level) (hle : level ≤ z.level)
    {score : S} {ele : Sds} {z₁ : Zskiplist S} {u : Entry S}
    (hu : (z.frame.nodes A).getLast? = some u)
    (hf : z₁.frame = (zslCreateNode z level score (some ele)).1.frame)
    (hl : ∀ i < z.level, Lane (z₁.lev i) i
      (z.frame.nodes (A ++ ⟨z.brk, level, toLex (score, ele)⟩ :: B)))
    (htop : ∀ i, z.level ≤ i → z₁.lev i = (zslCreateNode z level score (some ele)).1.lev i) :
    ∃ z₂ z₃, z₁.setBackward z.brk (if u.ptr = z₁.header then none else some u.ptr) = some z₂ ∧
      z₂.lev 0 z.brk = some (hop 0 B) ∧ zslBackTo z₂ (hop 0 B).forward (some z.brk) = some z₃ ∧
      z₃.level = z.level ∧
      Core { z₃ with length := z₃.length + 1 }
        (A ++ ⟨z.brk, level, toLex (score, ele)⟩ :: B) D := by
  have hn := hc.nodup_insert level (toLex (score, ele))
  have hhd : z₁.header = z.header := congrArg Frame.header hf
  rw [zslCreateNode_frame] at hf
  -- The link back of the new node.
  have hbody : z₁.frame.body = Function.update z.frame.body z.brk (some (some ele, score, level)) :=
    congrArg Frame.body hf
  obtain ⟨n, hxn, -⟩ := heap_of_body (z := z₁) (by rw [hbody]; exact Function.update_self ..)
  have hlast : (if u.ptr = z.header then none else some u.ptr) = lastPtr none A :=
    hc.shape.backward hu
  rw [hhd, hlast]
  obtain ⟨z₂, h₂, hl₂, hf₂⟩ := setBackward_spec hxn (lastPtr none A)
  -- The link back of the node after it, or the tail.
  have hlev₂ : z₂.lev 0 z.brk = some (hop 0 B) := by
    have hl₀ : Lane (z₁.lev 0) 0 (z.frame.nodes A ++ ⟨z.brk, level, toLex (score, ele)⟩ :: B) :=
      hl 0 hc.shape.level.1
    rw [hl₂]
    exact hl₀.link_eq h₁
  have hfw := hop_zero fun e he => (hc.shape.height e (List.mem_append_right A he)).1
  obtain ⟨z₃, h₃, hl₃, hf₃⟩ := zslBackTo_spec (z := z₂) (p := B.head?.map Tower.ptr) (fun q hq => by
    obtain ⟨b, hb, rfl⟩ := Option.map_eq_some_iff.mp hq
    have hb := List.mem_append_right A (List.mem_of_mem_head? hb)
    have hb₂ : z₂.frame.body b.ptr = z.frame.body b.ptr := by
      rw [hf₂]
      exact (congrFun hbody _).trans
        (Function.update_of_ne (hc.ptr_ne_brk (List.mem_cons_of_mem _ hb)) _ _)
    obtain ⟨m, hm, -⟩ := heap_of_body (hb₂.trans (hc.shape.body b hb))
    rw [hm]
    rfl) (some z.brk)
  -- The new address and node do not matter to the links back.
  have hback₁ : ∀ p, p ≠ z.brk → z₁.frame.back p = z.frame.back p := fun p hp => by
    rw [hf]
    exact Function.update_of_ne hp _ _
  obtain ⟨hhb, hback, htail⟩ := hc.shape.backTo_insert hn
    (show z₂.frame.tail = z.frame.tail by rw [hf₂, hf]) (by rw [hf₂]; exact Function.update_self ..)
    fun p hp => by
      rw [hf₂, ← hback₁ p hp]
      exact Function.update_of_ne hp _ _
  rw [← hf₃] at hhb hback htail
  rw [hf₂, hf] at hf₃
  have hhd₃ : z₃.header = z.header :=
    (congrArg Frame.header hf₃).trans (Frame.backTo_header ..)
  have hlev₃ : z₃.level = z.level := (congrArg Frame.level hf₃).trans (Frame.backTo_level ..)
  refine ⟨z₂, z₃, h₂, hlev₂, by rw [hfw]; exact h₃, hlev₃, ?_, fun i hi => ?_, fun i hi hi' => ?_⟩
  · refine hc.shape.insert rfl ⟨h₁, hle⟩ hn hhd₃ hlev₃ ?_ ?_ ?_ ?_ ?_ ?_
    · exact (congrArg Frame.brk hf₃).trans (Frame.backTo_brk ..)
    · exact congrArg (· + 1) ((congrArg Frame.length hf₃).trans (Frame.backTo_length ..))
    · exact (congrArg Frame.body hf₃).trans (Frame.backTo_body ..)
    · exact hhb
    · exact hback
    · exact htail
  · rw [nodes_congr (f := z.frame) hhd₃]
    change Lane (z₃.lev i) i _
    rw [hl₃, hl₂]
    exact hl i (hlev₃ ▸ hi)
  · change ∃ l, z₃.lev i z₃.header = some l ∧ _
    have hne : z.header ≠ z.brk := hc.ptr_ne_brk (e := z.frame.head) (by simp [Frame.nodes])
    rw [hl₃, hl₂, hhd₃, htop i (hlev₃ ▸ hi), zslCreateNode_lev, Function.update_of_ne hne]
    exact hc.top i (hlev₃ ▸ hi) hi'

variable [LinearOrder S]

/-- `zslInsert` puts the entry between `A` and `B`. -/
theorem zslInsert_core (hc : Core z (A ++ B) D) {score : S} {ele : Sds}
    (hd : Divides (zslBefore score ele) A B) (random : List ℕ) :
    ∃ z' x, zslInsert z random score ele = some (z', x) ∧
      Core z' (A ++ ⟨x, zslRandomLevel random, toLex (score, ele)⟩ :: B) D ∧
      z'.level = max z.level (zslRandomLevel random) := by
  obtain ⟨us, hs, hus⟩ := zslSearch_spec hc hd
  obtain ⟨z₁, us₁, hr, hc₁, hf₁, hus₁⟩ := zslRaise_spec hc hus (zslRandomLevel_le random)
  have hlev₁ : z₁.level = max z.level (zslRandomLevel random) := congrArg Frame.level hf₁
  have hpos := zslRandomLevel_pos random
  have hle : zslRandomLevel random ≤ z₁.level := by omega
  obtain ⟨z₂, z₃, h₂, h₃, hf₃, hlane, htop⟩ := zslLink_loops score (some ele) hc₁ hus₁ hpos
    hle (toLex (score, ele))
  obtain ⟨u, hu, hlast⟩ := hus₁.zero (by omega) fun e he =>
    (hc₁.shape.height e (by simp [he])).1
  obtain ⟨z₄, z₅, h₄, hl₄, h₅, hlev, hc₅⟩ := zslInsert_end hc₁ hpos hle hlast hf₃ hlane htop
  refine ⟨{ z₅ with length := z₅.length + 1 }, z₁.brk, ?_, hc₅, hlev.trans hlev₁⟩
  have hx : zslCreateNode z₁ (zslRandomLevel random) score (some ele) =
    ((zslCreateNode z₁ (zslRandomLevel random) score (some ele)).1, z₁.brk) := rfl
  simp only [zslInsert, hs, hr, Option.bind_eq_bind, Option.bind_some]
  rw [hx]
  simp only [h₂, h₃, hu, h₄, hl₄, h₅, Option.bind_some]

end CrdtRedis
