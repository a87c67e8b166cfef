import CrdtRedis.Zset.Delete

/-!
# The skip list in order

`Holds z L D`: the entries `L` of the skip list `z` are in the order of their keys and no element is
there twice. Under it the operations of `t_zset.c` find their place by the key, and keep it:

* `zslInsert_spec`: one entry more, for an element that is not there.
* `zslDelete_spec`: the entry with the score and the element is gone, and its node is freed or
  handed to the caller.
* `zslUpdateScore_spec`: the entry has its new score, whether its node stays where it is or a new
  node takes its place.
* `zslGetRank_spec`: the spans count the entries.

In all of them the function has a result, so it follows no pointer to a node that is not there and
its assertions hold.
-/

namespace CrdtRedis

open SkipLanes

variable {S : Type} [LinearOrder S] [Zero S] {z : Zskiplist S} {L A B : List (Entry S)}
  {D : List ℕ} {score : S} {ele : Sds}

/-- The element of an entry. -/
def eleOf (e : Entry S) : Sds := (ofLex e.key).2

/-- The skip list holds the entries `L` in the order of their keys. -/
structure Holds (z : Zskiplist S) (L : List (Entry S)) (D : List ℕ) : Prop where
  core : Core z L D
  tight : Tight z L
  sorted : L.Pairwise fun a b => a.key < b.key
  eles : (L.map eleOf).Nodup

/-! ## Keys -/

omit [Zero S] in
theorem passes_before {e : Entry S} {r : ℕ} :
    passes (zslBefore score ele) e r = true ↔ e.key < toLex (score, ele) := by
  simp [passes, zslBefore, Prod.Lex.lt_iff, sdscmp_neg]

omit [Zero S] in
theorem passes_upTo {e : Entry S} {r : ℕ} :
    passes (zslUpTo score ele) e r = true ↔ e.key ≤ toLex (score, ele) := by
  simp [passes, zslUpTo, Prod.Lex.le_iff, sdscmp_nonpos]

omit [Zero S] in
/-- A test of the keys divides a list in order, if it goes down with the keys. -/
theorem Divides.of_sorted {pass : S → Option Sds → ℤ → Bool} {q : Key S → Prop}
    (hq : ∀ e r, passes pass e r = true ↔ q e.key) (hmono : ∀ a b : Key S, a < b → q b → q a)
    (hs : L.Pairwise fun a b => a.key < b.key) :
    ∃ A B, L = A ++ B ∧ (∀ e ∈ A, q e.key) ∧ (∀ e ∈ B, ¬ q e.key) ∧ Divides pass A B := by
  suffices h : ∃ A B, L = A ++ B ∧ (∀ e ∈ A, q e.key) ∧ ∀ e ∈ B, ¬ q e.key by
    obtain ⟨A, B, hL, hA, hB⟩ := h
    refine ⟨A, B, hL, hA, hB, fun C e E h => (hq e _).mpr (hA e (by simp [h])), fun C e E h => ?_⟩
    exact Bool.eq_false_iff.mpr fun hp => hB e (by simp [h]) ((hq e _).mp hp)
  induction L with
  | nil => exact ⟨[], [], rfl, by simp, by simp⟩
  | cons a L ih =>
    obtain ⟨ha, hs⟩ := List.pairwise_cons.mp hs
    by_cases hqa : q a.key
    · obtain ⟨A, B, rfl, hA, hB⟩ := ih hs
      exact ⟨a :: A, B, rfl, by simpa [hqa] using hA, hB⟩
    · exact ⟨[], a :: L, rfl, by simp, by
        simpa [hqa] using fun e he h => hqa (hmono _ _ (ha e he) h)⟩

omit [Zero S] in
/-- The place of a key. -/
theorem divides_before (hs : L.Pairwise fun a b => a.key < b.key) (k : Key S) :
    ∃ A B, L = A ++ B ∧ (∀ e ∈ A, e.key < k) ∧ (∀ e ∈ B, k ≤ e.key) ∧
      Divides (zslBefore (ofLex k).1 (ofLex k).2) A B := by
  obtain ⟨A, B, hL, hA, hB, hd⟩ := Divides.of_sorted (L := L) (q := (· < k))
    (fun e r => passes_before) (fun a b hab hb => hab.trans hb) hs
  exact ⟨A, B, hL, hA, fun e he => not_lt.mp (hB e he), hd⟩

omit [Zero S] in
/-- The place of a key that is there. -/
theorem divides_at (hs : L.Pairwise fun a b => a.key < b.key) {e : Entry S} (he : e ∈ L) :
    ∃ A B, L = A ++ e :: B ∧ (∀ a ∈ A, a.key < e.key) ∧ (∀ b ∈ B, e.key < b.key) ∧
      Divides (zslBefore (ofLex e.key).1 (ofLex e.key).2) A (e :: B) := by
  obtain ⟨A, B, rfl⟩ := List.append_of_mem he
  obtain ⟨-, h, hA⟩ := List.pairwise_append.mp hs
  obtain ⟨hB, -⟩ := List.pairwise_cons.mp h
  refine ⟨A, B, rfl, fun a ha => hA a ha e (by simp), hB, fun C a E h => ?_, fun C b E h => ?_⟩
  · exact passes_before.mpr (hA a (by simp [h]) e (by simp))
  · refine Bool.eq_false_iff.mpr fun hp => ?_
    have hlt := passes_before.mp hp
    have hb : b ∈ e :: B := by simp [h]
    rcases List.mem_cons.mp hb with rfl | hb
    · exact lt_irrefl _ hlt
    · exact lt_asymm hlt (hB b hb)

/-! ## Insertion -/

omit [LinearOrder S] [Zero S] in
theorem Tight.insert {z' : Zskiplist S} {x : Entry S} (h : Tight z (A ++ B))
    (hlev : z'.level = max z.level x.height) : Tight z' (A ++ x :: B) := by
  rcases le_total z.level x.height with hle | hle
  · exact .inr ⟨x, by simp, by rw [hlev, max_eq_right hle]⟩
  · rw [max_eq_left hle] at hlev
    rcases h with h | ⟨e, he, hh⟩
    · exact .inl (hlev.trans h)
    · exact .inr ⟨e, List.perm_middle.mem_iff.mpr (List.mem_cons_of_mem _ he), hh.trans hlev.symm⟩

omit [LinearOrder S] [Zero S] in
theorem Tight.setKey {z' : Zskiplist S} {e : Entry S} (h : Tight z (A ++ e :: B))
    (hlev : z'.level = z.level) (k : Key S) : Tight z' (A ++ { e with key := k } :: B) := by
  rw [Tight, hlev]
  refine h.imp_right fun h => ?_
  obtain ⟨a, ha, hh⟩ := h
  rcases List.mem_cons.mp (List.perm_middle.mem_iff.mp ha) with rfl | ha
  · exact ⟨{ a with key := k }, by simp, hh⟩
  · exact ⟨a, List.perm_middle.mem_iff.mpr (List.mem_cons_of_mem _ ha), hh⟩

/-- `zslInsert` of an element that is not there. -/
theorem zslInsert_spec (h : Holds z L D) (score : S) (hele : ele ∉ L.map eleOf)
    (random : List ℕ) :
    ∃ z' x L', zslInsert z random score ele = some (z', x.ptr) ∧ x.key = toLex (score, ele) ∧
      L'.Perm (x :: L) ∧ Holds z' L' D := by
  obtain ⟨A, B, rfl, hA, hB, hd⟩ := divides_before h.sorted (toLex (score, ele))
  obtain ⟨z', p, hz', hc, hlev⟩ := zslInsert_core h.core hd random
  set x : Entry S := ⟨p, zslRandomLevel random, toLex (score, ele)⟩
  have hp : (A ++ x :: B).Perm (x :: (A ++ B)) := List.perm_middle
  refine ⟨z', x, A ++ x :: B, hz', rfl, hp, hc, h.tight.insert hlev, ?_, ?_⟩
  · obtain ⟨hsA, hsB, hAB⟩ := List.pairwise_append.mp h.sorted
    -- The element is new, so no key is equal.
    have hlt : ∀ b ∈ B, x.key < b.key := fun b hb =>
      lt_of_le_of_ne (hB b hb) fun he => hele (List.mem_map.mpr ⟨b, by simp [hb], by
        rw [eleOf, ← he]; rfl⟩)
    refine List.pairwise_append.mpr ⟨hsA, List.pairwise_cons.mpr ⟨hlt, hsB⟩, fun a ha b hb => ?_⟩
    rcases List.mem_cons.mp hb with rfl | hb
    · exact hA a ha
    · exact hAB a ha b hb
  · rw [(hp.map eleOf).nodup_iff, List.map_cons, List.nodup_cons]
    exact ⟨hele, h.eles⟩

/-! ## Deletion -/

omit [LinearOrder S] in
/-- The node that the search stopped at in the lowest lane, and the one after it. -/
theorem zslSearch_next {pass : S → Option Sds → ℤ → Bool} (hc : Core z (A ++ B) D)
    (hd : Divides pass A B) :
    ∃ us u l, zslSearch z pass = some us ∧ Reaches z.frame A (us.map Prod.fst) ∧
      us[0]? = some (u.ptr, (A.length : ℤ)) ∧ (z.frame.nodes A).getLast? = some u ∧
      z.lev 0 u.ptr = some l ∧ l.forward = B.head?.map Tower.ptr := by
  obtain ⟨us, hs, hus⟩ := zslSearch_spec hc hd
  have hpos : 0 < z.level := hc.shape.level.1
  obtain ⟨u, hu, hlast⟩ := hus.zero hpos fun e he => (hc.shape.height e (by simp [he])).1
  obtain ⟨v, r, hv, hg⟩ := hus.2 0 hpos
  have hl := hc.lev_prev hpos hv
  obtain ⟨hptr, -⟩ := Prod.mk.inj (Option.some.inj (hu.symm.trans hg))
  rw [← hptr] at hl
  refine ⟨us, u, _, hs, hus.reaches, hu, hlast, hl, ?_⟩
  exact hop_zero fun e he => (hc.shape.height e (by simp [he])).1

theorem Holds.ptr_notMem {e : Entry S} (h : Holds z L D) (he : e ∈ L) : e.ptr ∉ D := fun hD =>
  h.core.shape.detached e.ptr hD (List.mem_map_of_mem (List.mem_cons_of_mem _ he))

omit [LinearOrder S] [Zero S] in
theorem sublist_middle (e : Entry S) : (A ++ B).Sublist (A ++ e :: B) :=
  (List.Sublist.refl A).append (List.sublist_cons_self e B)

/-- The skip list without a node, that is not freed yet. -/
theorem zslDeleteNode_spec {e : Entry S} {us : List ℕ} (h : Holds z (A ++ e :: B) D)
    (hus : Reaches z.frame A us) :
    ∃ z', zslDeleteNode z e.ptr us = some z' ∧ Holds z' (A ++ B) (e.ptr :: D) ∧
      Reaches z'.frame A us := by
  obtain ⟨z', hz', hc, ht, hhd, hlev⟩ := zslDeleteNode_core h.core hus
  refine ⟨z', hz', ⟨hc, ht, h.sorted.sublist (sublist_middle e),
    h.eles.sublist ((sublist_middle e).map _)⟩, fun i hi => ?_⟩
  rw [nodes_congr (f := z.frame) hhd]
  exact hus i (lt_of_lt_of_le hi hlev)

theorem zslFreeNode_spec {p : ℕ} (h : Holds z L (p :: D)) (hD : p ∉ D) :
    ∃ z', zslFreeNode z p = some z' ∧ Holds z' L D ∧ z'.frame.header = z.frame.header ∧
      z'.frame.level = z.frame.level := by
  obtain ⟨z', hz', hc, hlev, hhd⟩ := zslFreeNode_core h.core hD
  exact ⟨z', hz', ⟨hc, by rw [Tight, hlev]; exact h.tight, h.sorted, h.eles⟩, hhd, hlev⟩

omit [LinearOrder S] [Zero S] in
/-- The node of an entry has the score and the element that the search was for. -/
theorem key_match {e : Entry S} {n : ZskiplistNode S} (hne : n.ele = some (eleOf e))
    (hns : n.score = (ofLex e.key).1) :
    (ofLex e.key).1 = n.score ∧ n.ele.map (sdscmp · (eleOf e)) = some 0 :=
  ⟨hns.symm, by rw [hne]; exact congrArg some (sdscmp_eq_zero.mpr rfl)⟩

/-- `zslDelete` of an entry that is there. -/
theorem zslDelete_spec {e : Entry S} (h : Holds z L D) (he : e ∈ L) (keep : Bool) :
    ∃ z' L', zslDelete z (ofLex e.key).1 (eleOf e) keep = some (z', some e.ptr) ∧
      L.Perm (e :: L') ∧ Holds z' L' (if keep then e.ptr :: D else D) := by
  have hD := h.ptr_notMem he
  obtain ⟨A, B, rfl, -, -, hd⟩ := divides_at h.sorted he
  obtain ⟨us, u, l, hs, hus, hu, -, hl, hfw⟩ := zslSearch_next h.core hd
  obtain ⟨n, hn, hne, hns, -⟩ := h.core.mem_body he
  obtain ⟨z₁, hz₁, h₁, -⟩ := zslDeleteNode_spec h hus
  obtain ⟨z₂, hz₂, h₂, -⟩ := zslFreeNode_spec h₁ hD
  have hm := key_match hne hns
  have hs' : zslSearch z (zslBefore (ofLex e.key).1 (eleOf e)) = some us := hs
  cases keep with
  | true =>
    refine ⟨z₁, A ++ B, ?_, List.perm_middle, h₁⟩
    simp only [zslDelete, hs', hu, hl, hfw, hn, if_pos hm, hz₁, Option.bind_eq_bind,
      Option.bind_some, List.head?_cons, Option.map_some, if_true]
  | false =>
    refine ⟨z₂, A ++ B, ?_, List.perm_middle, h₂⟩
    simp only [zslDelete, hs', hu, hl, hfw, hn, if_pos hm, hz₁, hz₂, Option.bind_eq_bind,
      Option.bind_some, List.head?_cons, Option.map_some, Bool.false_eq_true, if_false]

/-! ## A new score -/

omit [LinearOrder S] in
/-- A node with another score at the same place. -/
theorem setScore_core {e : Entry S} (hc : Core z (A ++ e :: B) D) (newscore : S) :
    ∃ z', z.setScore e.ptr newscore = some z' ∧ z'.level = z.level ∧
      Core z' (A ++ { e with key := toLex (newscore, eleOf e) } :: B) D := by
  have hs := hc.shape
  obtain ⟨n, hn, hne, -, hnl⟩ := hc.mem_body (e := e) (by simp)
  set e' : Entry S := { e with key := toLex (newscore, eleOf e) } with he'
  set z' := z.put e.ptr { n with score := newscore } with hz'
  have hlev : z'.lev = z.lev := by
    funext k
    rw [hz', lev_put, ← lev_eq hn, Function.update_eq_self]
  have hf : z'.frame = { z.frame with
      body := Function.update z.frame.body e.ptr (some (some (eleOf e), newscore, e.height)) } := by
    rw [hz', frame_put, ← frame_back hn, Function.update_eq_self, hne, hnl]
    rfl
  have hptr : (z.frame.nodes (A ++ e' :: B)).map Tower.ptr =
      (z.frame.nodes (A ++ e :: B)).map Tower.ptr := by
    simp [Frame.nodes, he']
  have hne' : ∀ a ∈ A ++ B, a.ptr ≠ e.ptr := fun a ha h => by
    have hn := (List.perm_middle.map Tower.ptr).nodup_iff.mp (List.nodup_cons.mp hs.nodup).2
    exact (List.nodup_cons.mp hn).1 (List.mem_map.mpr ⟨a, ha, h⟩)
  have hmem : ∀ a, a ∈ A ++ e' :: B → a = e' ∨ a ∈ A ++ B := fun a ha =>
    List.mem_cons.mp (List.perm_middle.mem_iff.mp ha)
  have hsub : ∀ a ∈ A ++ B, a ∈ A ++ e :: B := fun a ha => (sublist_middle e).subset ha
  refine ⟨z', by simp [Zskiplist.setScore, hn, hz'], rfl, ?_, fun i hi => ?_, fun i hi hi' => ?_⟩
  · rw [hf]
    exact
      { head := by
          refine (Function.update_of_ne ?_ _ _).trans hs.head
          exact (hs.ptr_ne_header (by simp)).symm
        headBack := hs.headBack
        body := fun a ha => by
          rcases hmem a ha with rfl | ha
          · exact Function.update_self ..
          · exact (Function.update_of_ne (hne' a ha) _ _).trans (hs.body a (hsub a ha))
        nodup := hptr ▸ hs.nodup
        height := fun a ha => by
          rcases hmem a ha with rfl | ha
          · exact hs.height e (by simp)
          · exact hs.height a (hsub a ha)
        level := hs.level
        back := hs.back.setKey _
        tail := by
          have := hs.tail
          simp only [lastPtr_append, lastPtr_cons] at this ⊢
          exact this
        length := by
          have := hs.length
          simp only [List.length_append, List.length_cons] at this ⊢
          exact this
        owned := fun p => by
          refine Iff.trans ?_ ((hs.owned p).trans (by rw [← hptr]; rfl))
          by_cases hp : p = e.ptr
          · subst hp
            have := hs.body e (by simp)
            simp [this]
          · simp [Function.update_of_ne hp]
        detached := fun p hp h => hs.detached p hp (hptr ▸ h)
        fresh := fun p hp => by
          refine (Function.update_of_ne ?_ _ _).trans (hs.fresh p hp)
          rintro rfl
          have := hs.body e (by simp)
          rw [hs.fresh _ hp] at this
          cases this }
  · rw [hlev]
    have hl : Lane (z.lev i) i (z.frame.nodes A ++ e :: B) := hc.lane i hi
    exact hl.setKey _
  · rw [hlev]
    exact hc.top i hi hi'

omit [LinearOrder S] [Zero S] in
theorem scoreOf_spec (e : Option (Entry S)) (test : S → Bool)
    (h : ∀ a ∈ e, ∃ n, z.heap a.ptr = some n ∧ n.score = (ofLex a.key).1) :
    scoreOf z (e.map Tower.ptr) test = some (e.all fun a => test (ofLex a.key).1) := by
  cases e with
  | none => rfl
  | some a =>
    obtain ⟨n, hn, hs⟩ := h a rfl
    simp [scoreOf, hn, hs]

omit [LinearOrder S] [Zero S] in
theorem lastPtr_none (L : List (Entry S)) : lastPtr none L = L.getLast?.map Tower.ptr := by
  simp [lastPtr]

omit [Zero S] in
theorem score_le_of_key_lt {a b : Key S} (h : a < b) : (ofLex a).1 ≤ (ofLex b).1 := by
  rcases Prod.Lex.lt_iff.mp h with h | ⟨h, -⟩
  · exact h.le
  · exact h.le

omit [Zero S] in
theorem key_lt_of_score {a b : Key S} (h : (ofLex a).1 < (ofLex b).1) : a < b :=
  Prod.Lex.lt_iff.mpr (.inl h)

omit [Zero S] in
/-- The test of `zslUpdateScore`: between its neighbours the entry may keep its place. -/
theorem sorted_setScore {e : Entry S} {newscore : S}
    (hs : (A ++ e :: B).Pairwise fun a b => a.key < b.key)
    (hA : ∀ a ∈ A.getLast?, (ofLex a.key).1 < newscore)
    (hB : ∀ b ∈ B.head?, newscore < (ofLex b.key).1) :
    (A ++ { e with key := toLex (newscore, eleOf e) } :: B).Pairwise fun a b => a.key < b.key := by
  obtain ⟨hsA, hsB, hAB⟩ := List.pairwise_append.mp hs
  obtain ⟨-, hsB⟩ := List.pairwise_cons.mp hsB
  have hA' : ∀ a ∈ A, a.key < toLex (newscore, eleOf e) := fun a ha => by
    rcases List.eq_nil_or_concat A with rfl | ⟨A', c, rfl⟩
    · cases ha
    · have hc := hA c (by simp)
      rw [List.concat_eq_append] at ha hsA
      rcases List.mem_append.mp ha with ha | ha
      · have := (List.pairwise_append.mp hsA).2.2 a ha c (by simp)
        exact key_lt_of_score ((score_le_of_key_lt this).trans_lt hc)
      · obtain rfl := List.mem_singleton.mp ha
        exact key_lt_of_score hc
  have hB' : ∀ b ∈ B, toLex (newscore, eleOf e) < b.key := fun b hb => by
    cases B with
    | nil => cases hb
    | cons c B =>
      have hc := hB c rfl
      rcases List.mem_cons.mp hb with rfl | hb
      · exact key_lt_of_score hc
      · have := (List.pairwise_cons.mp hsB).1 b hb
        exact key_lt_of_score (hc.trans_le (score_le_of_key_lt this))
  refine List.pairwise_append.mpr ⟨hsA, List.pairwise_cons.mpr ⟨hB', hsB⟩, fun a ha b hb => ?_⟩
  rcases List.mem_cons.mp hb with rfl | hb
  · exact hA' a ha
  · exact hAB a ha b (by simp [hb])

/-- Both neighbours leave room for the new score. -/
def stays (A B : List (Entry S)) (newscore : S) : Bool :=
  (A.getLast?.all fun a => (ofLex a.key).1 < newscore) &&
    B.head?.all fun b => newscore < (ofLex b.key).1

/-- What `zslUpdateScore` comes down to at the place of its entry. -/
theorem zslUpdateScore_eq {e : Entry S} (h : Holds z (A ++ e :: B) D)
    (hd : Divides (zslBefore (ofLex e.key).1 (eleOf e)) A (e :: B)) :
    ∃ us, Reaches z.frame A us ∧ ∀ random newscore,
      zslUpdateScore z random (ofLex e.key).1 (eleOf e) newscore =
        if stays A B newscore then (z.setScore e.ptr newscore).bind fun z => some (z, e.ptr)
        else (zslDeleteNode z e.ptr us).bind fun z =>
          (zslInsert z random newscore (eleOf e)).bind fun zy =>
            (zslFreeNode zy.1 e.ptr).bind fun z => some (z, zy.2) := by
  obtain ⟨us, u, l, hs, hus, hu, -, hl, hfw⟩ := zslSearch_next h.core hd
  have he : e ∈ A ++ e :: B := by simp
  obtain ⟨n, hn, hne, hns, -⟩ := h.core.mem_body he
  have hm := key_match hne hns
  rw [hne, Option.map_some] at hm
  have hback : n.backward = A.getLast?.map Tower.ptr := by
    have := (back_append.mp h.core.shape.back).2.1
    rw [frame_back hn, lastPtr_none] at this
    exact Option.some.inj this
  have hle : z.lev 0 e.ptr = some (hop 0 B) :=
    h.core.link (h.core.shape.height e he).1
  have hfwB := hop_zero (l := B) fun b hb => (h.core.shape.height b (by simp [hb])).1
  have hscore : ∀ a ∈ A ++ e :: B, ∃ n, z.heap a.ptr = some n ∧ n.score = (ofLex a.key).1 :=
    fun a ha => by
      obtain ⟨n, hn, -, hs, -⟩ := h.core.mem_body ha
      exact ⟨n, hn, hs⟩
  refine ⟨us.map Prod.fst, hus, fun random newscore => ?_⟩
  have hsb := scoreOf_spec A.getLast? (· < newscore) fun a ha =>
    hscore a (by simp [List.mem_of_getLast? ha])
  have hsf := scoreOf_spec B.head? (newscore < ·) fun b hb =>
    hscore b (by simp [List.mem_of_mem_head? hb])
  simp only [zslUpdateScore, hs, hu, hl, hfw, hn, guard, if_pos hm, hle, hback, hsb, hfwB, hsf,
    hne, Option.bind_eq_bind, Option.bind_some, List.head?_cons, Option.map_some, Option.pure_def]
  rw [stays]
  -- The second neighbour is only looked at when the first leaves room.
  cases A.getLast?.all fun a => decide ((ofLex a.key).1 < newscore) with
  | false => rfl
  | true => cases B.head?.all fun b => decide (newscore < (ofLex b.key).1) <;> rfl

/-- `zslUpdateScore` of an entry that is there. `M` are the other entries. -/
theorem zslUpdateScore_spec {e : Entry S} (h : Holds z L D) (he : e ∈ L) (random : List ℕ)
    (newscore : S) :
    ∃ z' x M L', zslUpdateScore z random (ofLex e.key).1 (eleOf e) newscore = some (z', x.ptr) ∧
      x.key = toLex (newscore, eleOf e) ∧ L.Perm (e :: M) ∧ L'.Perm (x :: M) ∧ Holds z' L' D := by
  have hD := h.ptr_notMem he
  obtain ⟨A, B, rfl, -, -, hd⟩ := divides_at h.sorted he
  obtain ⟨us, hus, heq⟩ := zslUpdateScore_eq h hd
  rw [heq]
  by_cases hhere : stays A B newscore = true
  · obtain ⟨z', hz', hlev, hc'⟩ := setScore_core h.core newscore
    obtain ⟨hA, hB⟩ := Bool.and_eq_true_iff.mp hhere
    simp only [Option.all_eq_true, decide_eq_true_eq] at hA hB
    refine ⟨z', { e with key := toLex (newscore, eleOf e) }, A ++ B, _, by simp [hhere, hz'],
      rfl, List.perm_middle, List.perm_middle, hc', ?_, sorted_setScore h.sorted hA hB, ?_⟩
    · exact h.tight.setKey hlev _
    · have := h.eles
      simpa [eleOf] using this
  · obtain ⟨z₁, hz₁, h₁, -⟩ := zslDeleteNode_spec h hus
    have hele : eleOf e ∉ (A ++ B).map eleOf :=
      (List.nodup_cons.mp ((List.perm_middle.map eleOf).nodup_iff.mp h.eles)).1
    obtain ⟨z₂, x, L', hz₂, hx, hp, h₂⟩ := zslInsert_spec h₁ newscore hele random
    obtain ⟨z₃, hz₃, h₃, -⟩ := zslFreeNode_spec h₂ hD
    exact ⟨z₃, x, A ++ B, L', by simp [hhere, hz₁, hz₂, hz₃], hx, List.perm_middle, hp, h₃⟩

/-! ## Ranks -/

omit [LinearOrder S] in
/-- A search that may stop after a lane stops at the last node of some lane where the test holds, or
the test holds in no lane. -/
theorem zslDescendUntil_spec {pass : S → Option Sds → ℤ → Bool} (stop : Option Sds → ℤ → Bool)
    (hc : Core z (A ++ B) D) (hd : Divides pass A B) {n : ℕ} (hn : n ≤ z.level)
    {C E : List (Entry S)} {x : Entry S} (hx : z.frame.nodes A = C ++ x :: E)
    (hxn : n ≤ x.height) :
    (zslDescendUntil z pass stop n x.ptr C.length = some none ∧
      ∀ i < n, ∃ u r m, Prev i (z.frame.nodes A) u r ∧ z.heap u.ptr = some m ∧
        stop m.ele r = false) ∨
    ∃ i < n, ∃ u r m, Prev i (z.frame.nodes A) u r ∧ z.heap u.ptr = some m ∧ stop m.ele r = true ∧
      zslDescendUntil z pass stop n x.ptr C.length = some (some (u.ptr, (r : ℤ))) := by
  induction n generalizing C x E with
  | zero => exact .inl ⟨rfl, by simp⟩
  | succ i ih =>
    obtain ⟨u, r, hu, hw⟩ := zslWalk_length hc hd (i := i) (by omega) hx (by omega)
    obtain ⟨m, hm⟩ := Option.isSome_iff_exists.mp
      (hc.isSome_heap (e := u) (List.mem_append_left B hu.mem))
    by_cases hstop : stop m.ele r = true
    · exact .inr ⟨i, by omega, u, r, m, hu, hm, hstop, by simp [zslDescendUntil, hw, hm, hstop]⟩
    · obtain ⟨C', E', hC', rfl, hui, -⟩ := id hu
      have heq : zslDescendUntil z pass stop (i + 1) x.ptr C.length =
          zslDescendUntil z pass stop i u.ptr C'.length := by
        simp [zslDescendUntil, hw, hm, hstop]
      rw [heq]
      rcases ih (by omega) hC' (by omega) with ⟨hno, hall⟩ | ⟨k, hk, h⟩
      · refine .inl ⟨hno, fun k hk => ?_⟩
        by_cases hki : k = i
        · subst hki
          exact ⟨u, C'.length, m, hu, hm, by simpa using hstop⟩
        · exact hall k (by omega)
      · exact .inr ⟨k, by omega, h⟩

omit [Zero S] in
/-- The entries up to a key that is there. -/
theorem divides_upTo {e : Entry S} (hs : (A ++ e :: B).Pairwise fun a b => a.key < b.key) :
    Divides (zslUpTo (ofLex e.key).1 (eleOf e)) (A ++ [e]) B := by
  obtain ⟨-, h, hA⟩ := List.pairwise_append.mp hs
  obtain ⟨hB, -⟩ := List.pairwise_cons.mp h
  refine ⟨fun C a E h => passes_upTo.mpr ?_, fun C b E h => ?_⟩
  · have ha : a ∈ A ++ [e] := by simp [h]
    rcases List.mem_append.mp ha with ha | ha
    · exact (hA a ha e (by simp)).le
    · rw [List.mem_singleton.mp ha]
      exact le_rfl
  · refine Bool.eq_false_iff.mpr fun hp => ?_
    exact absurd (passes_upTo.mp hp) (not_le.mpr (hB b (by simp [h])))

/-- `zslGetRank` of an entry that is there. -/
theorem zslGetRank_spec {e : Entry S} (h : Holds z (A ++ e :: B) D) :
    zslGetRank z (ofLex e.key).1 (eleOf e) = some (A.length + 1 : ℤ) := by
  have hc := h.core
  rw [List.append_cons] at hc
  have hs := zslDescendUntil_spec (fun e' _ => e'.any fun e' => sdscmp e' (eleOf e) = 0)
    hc (divides_upTo h.sorted) le_rfl (C := []) (x := z.frame.head) rfl hc.shape.level.2
  -- A node with the element is the one of `e`.
  have huniq : ∀ a ∈ z.frame.nodes (A ++ [e]), ∀ m, z.heap a.ptr = some m →
      m.ele.any (fun e' => sdscmp e' (eleOf e) = 0) = true → a = e := fun a ha m hm hany => by
    obtain ⟨e', he', hcmp⟩ := (Option.any_eq_true _ _).mp hany
    have hele : e' = eleOf e := sdscmp_eq_zero.mp (by simpa using hcmp)
    rcases List.mem_cons.mp ha with rfl | ha
    · have := hc.shape.head
      rw [show z.frame.header = z.frame.head.ptr from rfl, frame_body hm, he'] at this
      simp at this
    · obtain ⟨m', hm', hme, -⟩ := hc.mem_body (e := a) (List.mem_append_left _ ha)
      obtain rfl : m = m' := Option.some.inj (hm.symm.trans hm')
      have heq : eleOf a = eleOf e := by
        rw [hme] at he'
        exact (Option.some.inj he').trans hele
      rcases List.mem_append.mp ha with ha | ha
      · have hnd := (List.perm_middle.map eleOf).nodup_iff.mp h.eles
        exact absurd (List.mem_map.mpr ⟨a, List.mem_append_left B ha, heq⟩)
          (List.nodup_cons.mp hnd).1
      · exact List.mem_singleton.mp ha
  rcases hs with ⟨hno, hall⟩ | ⟨i, hi, u, r, m, hu, hm, hstop, hres⟩
  · -- The lowest lane ends at `e`.
    obtain ⟨u, r, m, hu, hm, hstop⟩ := hall 0 hc.shape.level.1
    obtain ⟨hlast, -⟩ := hu.last fun a ha => (hc.shape.height a (List.mem_append_left _ ha)).1
    obtain rfl : e = u := by
      rw [Frame.nodes, ← List.cons_append, List.getLast?_concat] at hlast
      exact Option.some.inj hlast
    obtain ⟨m', hm', hme, -⟩ := hc.mem_body (e := e) (by simp)
    obtain rfl : m = m' := Option.some.inj (hm.symm.trans hm')
    rw [hme] at hstop
    simp [sdscmp_eq_zero, eleOf] at hstop
  · obtain rfl : u = e := huniq u hu.mem m hm hstop
    obtain ⟨l₁, l₂, hl, rfl, -, -⟩ := hu
    have hu : u ∉ z.frame.head :: A := by
      rintro hu
      rcases List.mem_cons.mp hu with rfl | hu
      · exact h.core.shape.ptr_ne_header (e := z.frame.head) (by simp) rfl
      · have hnd := (List.perm_middle.map eleOf).nodup_iff.mp h.eles
        exact (List.nodup_cons.mp hnd).1 (List.mem_map_of_mem (by simp [hu]))
    have hl' : (z.frame.head :: A) ++ u :: [] = l₁ ++ u :: l₂ := hl
    obtain ⟨hl₁, -, -⟩ := (List.append_cons_inj_of_notMem hu (by simp)).mp hl'
    rw [← hl₁] at hres
    refine (congrArg (Option.bind · fun found => some (found.elim 0 Prod.snd)) hres).trans ?_
    simp

end CrdtRedis
