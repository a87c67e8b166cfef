import CrdtRedis.Zset.Object

/-!
# Sorted set objects hold sorted sets

Each function of `t_zset.c` on an object that shows `R` has a result, and it is that of the sorted
set `R` (`zsetAdd_shows`, `zsetDel_shows`, `zsetConvert_shows`, `zsetScore_eq`, `zsetRank_eq`, …).
`zset_refines` puts them together for whole runs: from a new object of either encoding, with all
limits of the ziplist and all random levels, every reply is that of the sorted set.
-/

namespace CrdtRedis

open SkipLanes

variable {S : Type} [LinearOrder S] [Zero S] {z : Zskiplist S} {zs : Zset S} {zl : Zzl S}
  {L M : List (Entry S)} {R : Ranking S} {zobj : Zobj S} {ele : Sds} {score : S}

/-! ## New objects -/

/-- A new skip list holds nothing. -/
theorem zslCreate_holds : Holds (zslCreate : Zskiplist S) [] [] := by
  have hheap : (zslCreate : Zskiplist S).heap 0 =
      some ⟨none, 0, none, List.replicate zskiplistMaxlevel ⟨none, 0⟩⟩ := rfl
  have hlev : ∀ i < zskiplistMaxlevel, (zslCreate : Zskiplist S).lev i 0 = some ⟨none, 0⟩ :=
    fun i hi => by rw [lev_eq hheap, List.getElem?_replicate, if_pos hi]
  have hbody : ∀ p, p ≠ 0 → (zslCreate : Zskiplist S).frame.body p = none := fun p hp => by
    simp [Zskiplist.frame, zslCreate, zslCreateNode, hp]
  refine ⟨⟨?_, fun i hi => ?_, fun i _ hi => ⟨⟨none, 0⟩, hlev i hi, rfl⟩⟩, .inl rfl,
    List.Pairwise.nil, List.nodup_nil⟩
  · exact
      { head := rfl
        headBack := rfl
        body := by simp
        nodup := by simp [Frame.nodes]
        height := by simp
        level := ⟨le_rfl, show 1 ≤ zskiplistMaxlevel by decide⟩
        back := trivial
        tail := rfl
        length := rfl
        owned := fun p => by
          by_cases hp : p = 0
          · subst hp
            exact iff_of_true rfl (.inl (by simp [Frame.nodes, Frame.head]; rfl))
          · rw [hbody p hp]
            refine iff_of_false (by simp) ?_
            simp only [Frame.nodes, List.map_cons, List.map_nil, List.mem_singleton,
              List.not_mem_nil, or_false]
            exact hp
        detached := by simp
        fresh := fun p hp => hbody p (by have : 1 ≤ p := hp; omega) }
  · exact ⟨fun hi => hlev i hi, trivial⟩

theorem createZsetObject_shows : Shows (createZsetObject : Zobj S) Ranking.empty :=
  ⟨[], ⟨zslCreate_holds, by simp⟩, rfl⟩

theorem createZsetZiplistObject_shows :
    Shows (createZsetZiplistObject : Zobj S) Ranking.empty := rfl

/-! ## The skip list and the dictionary -/

theorem Holds.keys_eq {D : List ℕ} (h : Holds z L D) (hp : (L.map Tower.key).Perm R.keys) :
    L.map Tower.key = R.keys :=
  hp.eq_of_pairwise' ((List.pairwise_map.mpr h.sorted).imp le_of_lt) R.sorted

/-- A member and its node. -/
theorem ZsetOk.entry {p : ℕ} (h : ZsetOk zs L) (hd : zs.dict ele = some p) :
    ∃ e ∈ L, eleOf e = ele ∧ e.ptr = p ∧ dictScore zs p = some (keyScore e.key) := by
  obtain ⟨e, he, rfl, rfl⟩ := (h.dict ele p).mp hd
  obtain ⟨n, hn, -, hs, -⟩ := h.holds.core.mem_body he
  exact ⟨e, he, rfl, rfl, by rw [dictScore, hn]; exact congrArg some hs⟩

theorem ZsetOk.ele_notMem (h : ZsetOk zs L) (hd : zs.dict ele = none) : ele ∉ L.map eleOf := by
  intro hm
  obtain ⟨e, he, rfl⟩ := List.mem_map.mp hm
  rw [(h.dict (eleOf e) e.ptr).mpr ⟨e, he, rfl, rfl⟩] at hd
  cases hd

omit [LinearOrder S] [Zero S] in
/-- The dictionary when the entries of one member change. -/
theorem dict_update {dict : Sds → Option ℕ} {L' : List (Entry S)} {x : Entry S}
    (hd : ∀ e p, eleOf x ≠ e → (dict e = some p ↔ ∃ a ∈ M, eleOf a = e ∧ a.ptr = p))
    (hM : eleOf x ∉ M.map eleOf) (hp : L'.Perm (x :: M)) (e : Sds) (p : ℕ) :
    Function.update dict (eleOf x) (some x.ptr) e = some p ↔
      ∃ a ∈ L', eleOf a = e ∧ a.ptr = p := by
  have hmem : ∀ a, a ∈ L' ↔ a = x ∨ a ∈ M := fun a => by rw [hp.mem_iff, List.mem_cons]
  simp only [hmem]
  by_cases he : eleOf x = e
  · subst he
    rw [Function.update_self]
    constructor
    · intro h
      exact ⟨x, .inl rfl, rfl, Option.some.inj h⟩
    · rintro ⟨a, rfl | ha, hae, rfl⟩
      · rfl
      · exact absurd (List.mem_map.mpr ⟨a, ha, hae⟩) hM
  · rw [Function.update_of_ne (Ne.symm he), hd e p he]
    constructor
    · rintro ⟨a, ha, h⟩
      exact ⟨a, .inr ha, h⟩
    · rintro ⟨a, rfl | ha, hae, h⟩
      · exact absurd hae he
      · exact ⟨a, ha, hae, h⟩

/-- A new member. -/
theorem ZsetOk.insert (h : ZsetOk zs L) (score : S) (hele : zs.dict ele = none)
    (random : List ℕ) :
    ∃ zsl node dict x L', zslInsert zs.zsl random score ele = some (zsl, node) ∧
      dictAdd zs.dict ele node = some dict ∧ x.key = toLex (score, ele) ∧ L'.Perm (x :: L) ∧
      ZsetOk ⟨dict, zsl⟩ L' := by
  have hno := h.ele_notMem hele
  obtain ⟨zsl, x, L', hz, hk, hp, hh⟩ := zslInsert_spec h.holds score hno random
  obtain rfl : eleOf x = ele := by rw [eleOf, hk]; rfl
  refine ⟨zsl, x.ptr, _, x, L', hz, if_pos hele, hk, hp, hh, fun e p => ?_⟩
  exact dict_update (fun e p _ => h.dict e p) hno hp e p

/-- The dictionary on the other members. -/
theorem ZsetOk.dict_others {e : Entry S} (h : ZsetOk zs L) (hp : L.Perm (e :: M)) {a : Sds}
    (ha : eleOf e ≠ a) (p : ℕ) : zs.dict a = some p ↔ ∃ b ∈ M, eleOf b = a ∧ b.ptr = p := by
  rw [h.dict]
  constructor
  · rintro ⟨b, hb, hba, h⟩
    rcases List.mem_cons.mp (hp.mem_iff.mp hb) with rfl | hb
    · exact absurd hba ha
    · exact ⟨b, hb, hba, h⟩
  · rintro ⟨b, hb, h⟩
    exact ⟨b, hp.mem_iff.mpr (List.mem_cons_of_mem _ hb), h⟩

theorem ZsetOk.ele_notMem_others {e : Entry S} (h : ZsetOk zs L) (hp : L.Perm (e :: M)) :
    eleOf e ∉ M.map eleOf :=
  (List.nodup_cons.mp ((hp.map eleOf).nodup_iff.mp h.holds.eles)).1

/-- Another score of a member. -/
theorem ZsetOk.updateScore {e : Entry S} (h : ZsetOk zs L) (he : e ∈ L) (score : S)
    (random : List ℕ) :
    ∃ zsl node x M L', zslUpdateScore zs.zsl random (keyScore e.key) (eleOf e) score =
        some (zsl, node) ∧ x.key = toLex (score, eleOf e) ∧ L.Perm (e :: M) ∧ L'.Perm (x :: M) ∧
      ZsetOk ⟨Function.update zs.dict (eleOf e) (some node), zsl⟩ L' := by
  obtain ⟨zsl, x, M, L', hz, hk, hp, hp', hh⟩ := zslUpdateScore_spec h.holds he random score
  have hx : eleOf x = eleOf e := by rw [eleOf, hk]; rfl
  have hM := h.ele_notMem_others hp
  refine ⟨zsl, x.ptr, x, M, L', hz, hk, hp, hp', hh, fun a p => ?_⟩
  rw [← hx] at hM ⊢
  exact dict_update (fun a p ha => h.dict_others hp (hx ▸ ha) p) hM hp' a p

/-- A member less. -/
theorem ZsetOk.delete {e : Entry S} (h : ZsetOk zs L) (he : e ∈ L) :
    ∃ zsl M, zslDelete zs.zsl (keyScore e.key) (eleOf e) false = some (zsl, some e.ptr) ∧
      L.Perm (e :: M) ∧ ZsetOk ⟨Function.update zs.dict (eleOf e) none, zsl⟩ M := by
  obtain ⟨zsl, M, hz, hp, hh⟩ := zslDelete_spec h.holds he false
  have hM := h.ele_notMem_others hp
  refine ⟨zsl, M, hz, hp, hh, fun a p => ?_⟩
  by_cases ha : eleOf e = a
  · subst ha
    simp only [Function.update_self, reduceCtorEq, false_iff]
    rintro ⟨b, hb, hbe, -⟩
    exact hM (List.mem_map.mpr ⟨b, hb, hbe⟩)
  · rw [← h.dict_others hp ha]
    simp [Function.update_of_ne (Ne.symm ha)]

/-! ## Scores -/

theorem ZsetOk.score_none (h : ZsetOk zs L) (hk : L.map Tower.key = R.keys)
    (hd : zs.dict ele = none) : R.score ele = none := by
  rw [Ranking.score_eq_none, ← hk, List.map_map]
  exact h.ele_notMem hd

omit [Zero S] in
theorem score_of_mem {e : Entry S} (hk : L.map Tower.key = R.keys) (he : e ∈ L) :
    R.score (eleOf e) = some (keyScore e.key) := by
  rw [Ranking.score_eq_some, ← hk]
  exact List.mem_map.mpr ⟨e, he, rfl⟩

omit [Zero S] in
theorem zzl_score_none (hk : zl.map zzlKey = R.keys) (h : zzlFind ele zl = none) :
    R.score ele = none := by
  rw [Ranking.score_eq_none, ← hk, map_keyEle]
  exact zzlFind_none h

omit [Zero S] in
theorem zzl_score_some {i : ℕ} (hk : zl.map zzlKey = R.keys)
    (h : zzlFind ele zl = some (i, score)) : R.score ele = some score := by
  obtain ⟨zl₁, zl₂, rfl, -, -⟩ := zzlFind_some h
  rw [Ranking.score_eq_some, ← hk]
  exact List.mem_map.mpr ⟨(ele, score), by simp, rfl⟩

/-- `zsetScore` answers from the sorted set. -/
theorem zsetScore_eq (h : Shows zobj R) (ele : Sds) : zsetScore zobj ele = some (R.score ele) := by
  cases zobj with
  | ziplist zl =>
    rw [zsetScore]
    cases hf : zzlFind ele zl with
    | none => rw [zzl_score_none h hf]; rfl
    | some p =>
      obtain ⟨i, s⟩ := p
      rw [zzl_score_some h hf]
      rfl
  | skiplist zs =>
    obtain ⟨L, hok, hk⟩ := h
    rw [zsetScore]
    cases hd : zs.dict ele with
    | none => rw [hok.score_none hk hd]
    | some p =>
      obtain ⟨e, he, rfl, rfl, hs⟩ := hok.entry hd
      rw [score_of_mem hk he]
      simp only [hs]
      rfl

theorem zsetLength_eq (h : Shows zobj R) : zsetLength zobj = R.keys.length := by
  cases zobj with
  | ziplist zl =>
    rw [← (show zl.map zzlKey = R.keys from h), List.length_map]
    rfl
  | skiplist zs =>
    obtain ⟨L, hok, hk⟩ := h
    rw [← hk, List.length_map]
    exact hok.holds.core.shape.length

/-! ## Ranks -/

omit [LinearOrder S] [Zero S] in
theorem findIdx_append {K₁ : List (Key S)} (K₂ : List (Key S)) {k : Key S}
    (h : keyEle k ∉ K₁.map keyEle) :
    (K₁ ++ k :: K₂).findIdx? (fun k' => keyEle k' = keyEle k) = some K₁.length := by
  induction K₁ with
  | nil => simp [List.findIdx?_cons]
  | cons a K₁ ih =>
    simp only [List.map_cons, List.mem_cons, not_or] at h
    rw [List.cons_append, List.findIdx?_cons, if_neg (by simpa using Ne.symm h.1), ih h.2]
    rfl

omit [Zero S] in
theorem rank_eq_none : R.rank ele = none ↔ R.score ele = none := by
  rw [Ranking.rank, Ranking.score, Option.map_eq_none_iff, List.findIdx?_eq_none_iff,
    List.find?_eq_none]
  simp

/-- `zsetRank` of a sorted set that is not empty. -/
theorem zsetRank_eq (h : Shows zobj R) (hne : R.keys ≠ []) (ele : Sds) (reverse : Bool) :
    zsetRank zobj ele reverse = some ((R.rank ele).map fun i =>
      if reverse then (R.keys.length : ℤ) - (i + 1) else i) := by
  have hlen := zsetLength_eq h
  cases zobj with
  | ziplist zl =>
    have hk : zl.map zzlKey = R.keys := h
    have hzl : zl ≠ [] := by rintro rfl; exact hne hk.symm
    simp only [zsetRank, guard, if_pos hzl, hlen, Option.pure_def, Option.bind_eq_bind,
      Option.bind_some]
    cases hf : zzlFind ele zl with
    | none => rw [rank_eq_none.mpr (zzl_score_none hk hf)]; rfl
    | some p =>
      obtain ⟨i, s⟩ := p
      obtain ⟨zl₁, zl₂, rfl, rfl, hno⟩ := zzlFind_some hf
      have hr : R.rank ele = some zl₁.length := by
        rw [Ranking.rank, ← hk, List.map_append, List.map_cons]
        rw [← map_keyEle] at hno
        have := findIdx_append (zl₂.map zzlKey) (k := zzlKey (ele, s)) hno
        rwa [List.length_map] at this
      rw [hr]
      cases reverse <;> simp
  | skiplist zs =>
    obtain ⟨L, hok, hk⟩ := h
    cases hd : zs.dict ele with
    | none =>
      rw [rank_eq_none.mpr (hok.score_none hk hd)]
      simp [zsetRank, hd]
    | some p =>
      obtain ⟨e, he, rfl, rfl, hs⟩ := hok.entry hd
      obtain ⟨A, B, rfl⟩ := List.append_of_mem he
      have hrank := zslGetRank_spec hok.holds
      have hr : R.rank (eleOf e) = some A.length := by
        have hno : keyEle e.key ∉ (A.map Tower.key).map keyEle := by
          rw [List.map_map]
          have := (List.nodup_cons.mp ((List.perm_middle.map eleOf).nodup_iff.mp hok.holds.eles)).1
          rw [List.map_append, List.mem_append, not_or] at this
          exact this.1
        rw [Ranking.rank, ← hk, List.map_append, List.map_cons]
        have := findIdx_append (B.map Tower.key) hno
        rwa [List.length_map] at this
      have hs' : dictScore zs e.ptr = some (ofLex e.key).1 := hs
      have h0 : ((A.length : ℤ) + 1) ≠ 0 := by omega
      simp only [zsetRank, hd, hs', hrank, Option.bind_eq_bind, Option.bind_some, guard, if_pos h0,
        Option.pure_def, hlen, hr, Option.map_some]
      cases reverse <;> simp

/-! ## Changes -/

omit [Zero S] in
theorem zzl_erase {zl₁ zl₂ : Zzl S} (hk : (zl₁ ++ (ele, score) :: zl₂).map zzlKey = R.keys) :
    (zl₁ ++ zl₂).map zzlKey = (R.erase ele).keys := by
  have hp : R.keys.Perm (zzlKey (ele, score) :: (zl₁ ++ zl₂).map zzlKey) := by
    rw [← hk, ← List.map_cons]
    exact List.perm_middle.map zzlKey
  have hs := R.sorted
  rw [← hk] at hs
  have hsub : ((zl₁ ++ zl₂).map zzlKey).Sublist ((zl₁ ++ (ele, score) :: zl₂).map zzlKey) :=
    ((List.Sublist.refl zl₁).append (List.sublist_cons_self _ zl₂)).map _
  exact ((Ranking.erase_perm hp).symm).eq_of_pairwise' (hs.sublist hsub) (R.erase ele).sorted

omit [Zero S] in
theorem zzl_set (hk : zl.map zzlKey = (R.erase ele).keys) :
    (zzlInsert ele score zl).map zzlKey = (R.set ele score).keys := by
  have hno : ele ∉ zl.map Prod.fst := by
    rw [← map_keyEle, hk]
    exact R.ele_notMem_erase ele
  rw [zzlInsert_keys hno, hk]
  rfl

/-- The entries after a change of one member. -/
theorem ZsetOk.set_keys {L' : List (Entry S)} {x : Entry S} (h : ZsetOk zs L')
    (hk : x.key = toLex (score, ele)) (hp : L'.Perm (x :: M))
    (hM : (M.map Tower.key).Perm (R.erase ele).keys) :
    L'.map Tower.key = (R.set ele score).keys := by
  refine h.holds.keys_eq ((hp.map Tower.key).trans ?_)
  rw [List.map_cons, hk]
  exact (hM.cons _).trans (R.set_perm ele score).symm

omit [Zero S] in
theorem keys_erase_perm {e : Entry S} (hk : L.map Tower.key = R.keys) (hp : L.Perm (e :: M)) :
    (M.map Tower.key).Perm (R.erase (eleOf e)).keys := by
  refine (Ranking.erase_perm (k := e.key) ?_).symm
  rw [← hk, ← List.map_cons]
  exact hp.map Tower.key

/-- `zsetDel` takes the member out, and says if it was there. -/
theorem zsetDel_shows (h : Shows zobj R) (ele : Sds) :
    ∃ zobj', zsetDel zobj ele = some (zobj', (R.score ele).isSome) ∧
      Shows zobj' (R.erase ele) := by
  cases zobj with
  | ziplist zl =>
    have hk : zl.map zzlKey = R.keys := h
    rw [zsetDel]
    cases hf : zzlFind ele zl with
    | none =>
      have hno := zzl_score_none hk hf
      exact ⟨.ziplist zl, by simp [hno], by rw [Ranking.erase_of_score_none hno]; exact h⟩
    | some p =>
      obtain ⟨i, s⟩ := p
      refine ⟨.ziplist (zzlDelete zl i), by simp [zzl_score_some hk hf], ?_⟩
      obtain ⟨zl₁, zl₂, rfl, rfl, -⟩ := zzlFind_some hf
      rw [zzlDelete_append]
      exact zzl_erase hk
  | skiplist zs =>
    obtain ⟨L, hok, hk⟩ := id h
    rw [zsetDel]
    cases hd : zs.dict ele with
    | none =>
      have hno := hok.score_none hk hd
      exact ⟨.skiplist zs, by simp [hno], by rw [Ranking.erase_of_score_none hno]; exact h⟩
    | some p =>
      obtain ⟨e, he, rfl, rfl, hs⟩ := hok.entry hd
      obtain ⟨zsl, M, hz, hp, hok'⟩ := hok.delete he
      refine ⟨.skiplist ⟨Function.update zs.dict (eleOf e) none, zsl⟩, ?_, M, hok', ?_⟩
      · simp [hs, hz, score_of_mem hk he, guard]
      · exact hok'.holds.keys_eq (keys_erase_perm hk hp)

/-! ## Conversions -/

/-- The loop of `zsetConvert` over the pairs of a ziplist, with `M` already in the skip list. -/
theorem zzlToZset_spec (random : ℕ → List ℕ) (i : ℕ) (h : ZsetOk zs M)
    (hn : (zl.map Prod.fst).Nodup) (hd : ∀ e ∈ zl.map Prod.fst, e ∉ M.map eleOf) :
    ∃ zs' L, zzlToZset random i zl zs = some zs' ∧ ZsetOk zs' L ∧
      (L.map Tower.key).Perm (zl.map zzlKey ++ M.map Tower.key) := by
  induction zl generalizing i zs M with
  | nil => exact ⟨zs, M, rfl, h, by simp⟩
  | cons p zl ih =>
    obtain ⟨ele, score⟩ := p
    obtain ⟨hele, hn⟩ := List.nodup_cons.mp hn
    have hno : zs.dict ele = none := by
      cases hde : zs.dict ele with
      | none => rfl
      | some p =>
        obtain ⟨e, he, hee, -⟩ := (h.dict ele p).mp hde
        exact absurd (List.mem_map.mpr ⟨e, he, hee⟩) (hd ele (by simp))
    obtain ⟨zsl, node, dict, x, L', hz, hda, hk, hp, hok⟩ := h.insert score hno (random i)
    have hx : eleOf x = ele := by rw [eleOf, hk]; rfl
    obtain ⟨zs', L, hz', hok', hperm⟩ := ih (i + 1) hok hn fun e he hm => by
      rcases List.mem_cons.mp ((hp.map eleOf).mem_iff.mp hm) with h' | h'
      · rw [hx] at h'
        exact hele (h' ▸ he)
      · exact hd e (by simp [List.mem_map.mp he]) h'
    refine ⟨zs', L, by simp [zzlToZset, hz, hda, hz'], hok', hperm.trans ?_⟩
    rw [List.map_cons, List.cons_append]
    refine (List.Perm.append_left _ (hp.map Tower.key)).trans ?_
    rw [List.map_cons, hk]
    exact List.perm_middle

/-- The nodes of the entries, linked in the lowest lane. The header and the nodes before are not
needed, as `zsetConvert` frees them on its way. -/
def Row (z : Zskiplist S) : List (Entry S) → Prop
  | [] => True
  | e :: L => (∃ n l, z.heap e.ptr = some n ∧ n.ele = some (eleOf e) ∧ n.score = keyScore e.key ∧
      z.lev 0 e.ptr = some l ∧ l.forward = L.head?.map Tower.ptr) ∧ Row z L

omit [LinearOrder S] [Zero S] in
theorem Row.congr {z' : Zskiplist S} (h : Row z L) (hz : ∀ e ∈ L, z'.heap e.ptr = z.heap e.ptr) :
    Row z' L := by
  induction L with
  | nil => trivial
  | cons e L ih =>
    obtain ⟨⟨n, l, hn, hne, hns, hl, hf⟩, hrow⟩ := h
    refine ⟨⟨n, l, (hz e (by simp)).trans hn, hne, hns, ?_, hf⟩, ih hrow fun a ha => hz a (by
      simp [ha])⟩
    rw [← hl, Zskiplist.lev, Zskiplist.lev, hz e (by simp)]

theorem Holds.row {D : List ℕ} (h : Holds z L D) : Row z L := by
  suffices hs : ∀ A B, L = A ++ B → Row z B from hs [] L rfl
  intro A B hL
  induction B generalizing A with
  | nil => trivial
  | cons e B ih =>
    subst hL
    obtain ⟨n, hn, hne, hns, -⟩ := h.core.mem_body (e := e) (by simp)
    have hl := h.core.link (h.core.shape.height e (by simp)).1
    have hf := hop_zero (l := B) fun b hb => (h.core.shape.height b (by simp [hb])).1
    exact ⟨⟨n, _, hn, hne, hns, hl, hf⟩, ih (A ++ [e]) (by simp)⟩

omit [LinearOrder S] [Zero S] in
theorem zslToZzl_spec {fuel : ℕ} (zl : Zzl S) (h : Row z L) (hn : (L.map Tower.ptr).Nodup)
    (hf : L.length < fuel) :
    ∃ z', zslToZzl fuel z (L.head?.map Tower.ptr) zl =
      some (zl ++ L.map fun e => (eleOf e, keyScore e.key), z') := by
  induction fuel generalizing L z zl with
  | zero => omega
  | succ fuel ih =>
    cases L with
    | nil => exact ⟨z, by simp [zslToZzl]⟩
    | cons e L =>
      obtain ⟨⟨n, l, hn', hne, hns, hl, hfw⟩, hrow⟩ := h
      obtain ⟨he, hn⟩ := List.nodup_cons.mp hn
      set z₁ : Zskiplist S := { z with heap := Function.update z.heap e.ptr none }
      have hrow₁ : Row z₁ L := hrow.congr fun a ha =>
        Function.update_of_ne (fun h : a.ptr = e.ptr => he (h ▸ List.mem_map_of_mem ha)) _ _
      obtain ⟨z', hz'⟩ := ih (zl ++ [(eleOf e, keyScore e.key)]) hrow₁ hn (by
        simp only [List.length_cons] at hf
        omega)
      refine ⟨z', ?_⟩
      have hfree : zslFreeNode z e.ptr = some z₁ := by simp [zslFreeNode, hn', z₁]
      simp only [zslToZzl, List.head?_cons, Option.map_some, hn', hne, hl, hfree, hfw, hns,
        Option.bind_eq_bind, Option.bind_some, hz']
      simp

omit [LinearOrder S] [Zero S] in
theorem zzlKey_pairs (L : List (Entry S)) :
    (L.map fun e => (eleOf e, keyScore e.key)).map zzlKey = L.map Tower.key := by
  rw [List.map_map]
  rfl

/-- `zsetConvert` keeps what the object holds. -/
theorem zsetConvert_shows (h : Shows zobj R) (random : ℕ → List ℕ) (encoding : ZsetEncoding)
    (hne : encoding = .skiplist → R.keys ≠ []) :
    ∃ zobj', zsetConvert random zobj encoding = some zobj' ∧ Shows zobj' R := by
  cases zobj with
  | ziplist zl =>
    have hk : zl.map zzlKey = R.keys := h
    cases encoding with
    | ziplist => exact ⟨_, rfl, h⟩
    | skiplist =>
      have hzl : zl ≠ [] := by
        rintro rfl
        exact hne rfl hk.symm
      have hn : (zl.map Prod.fst).Nodup := by
        rw [← map_keyEle, hk]
        exact R.eles
      have hnew : ZsetOk (⟨fun _ => none, zslCreate⟩ : Zset S) [] := ⟨zslCreate_holds, by simp⟩
      obtain ⟨zs, L, hz, hok, hp⟩ := zzlToZset_spec random 0 hnew hn (by simp)
      refine ⟨.skiplist zs, by simp [zsetConvert, guard, hzl, hz], L, hok, ?_⟩
      refine hok.holds.keys_eq ?_
      rw [← hk]
      simpa using hp
  | skiplist zs =>
    cases encoding with
    | skiplist => exact ⟨_, rfl, h⟩
    | ziplist =>
      obtain ⟨L, hok, hk⟩ := h
      have hc := hok.holds.core
      -- The header goes first.
      have hl : zs.zsl.lev 0 zs.zsl.header = some (hop 0 L) :=
        (hc.lane 0 hc.shape.level.1).1 (by change 0 < zskiplistMaxlevel; decide)
      have hfw := hop_zero fun e he => (hc.shape.height e he).1
      obtain ⟨n, hn, -⟩ := heap_of_body hc.shape.head
      set z₁ : Zskiplist S := { zs.zsl with heap := Function.update zs.zsl.heap zs.zsl.header none }
      have hfree : zslFreeNode zs.zsl zs.zsl.header = some z₁ := by
        simp only [zslFreeNode, Option.bind_eq_bind, z₁]
        rw [show zs.zsl.heap zs.zsl.header = some n from hn]
        rfl
      have hrow : Row z₁ L := hok.holds.row.congr fun a ha =>
        Function.update_of_ne (hc.shape.ptr_ne_header ha) _ _
      obtain ⟨z', hz'⟩ := zslToZzl_spec [] hrow (List.nodup_cons.mp hc.shape.nodup).2
        (show L.length < zs.zsl.length + 1 by
          have : zs.zsl.length = L.length := hc.shape.length
          omega)
      refine ⟨.ziplist (L.map fun e => (eleOf e, keyScore e.key)), ?_, ?_⟩
      · simp [zsetConvert, hl, hfree, hfw, hz']
      · exact (zzlKey_pairs L).trans hk

theorem zsetConvertToZiplistIfNeeded_shows (h : Shows zobj R) (cfg : ZsetCfg) (maxelelen : ℕ) :
    ∃ zobj', zsetConvertToZiplistIfNeeded cfg zobj maxelelen = some zobj' ∧ Shows zobj' R := by
  cases zobj with
  | ziplist zl => exact ⟨_, rfl, h⟩
  | skiplist zs =>
    rw [zsetConvertToZiplistIfNeeded]
    split
    · exact zsetConvert_shows h _ _ (by simp)
    · exact ⟨_, rfl, h⟩

/-! ## `zsetAdd` -/

/-- What `zsetAdd` does to a sorted set. -/
def Ranking.zadd (add : S → S → Option S) (R : Ranking S) (score : Option S) (ele : Sds)
    (flags : ZaddFlags) : Ranking S × ZaddReply S :=
  match score with
  | none => (R, ⟨false, .nan, none⟩)
  | some score =>
    match R.score ele with
    | some curscore =>
      if flags.nx then (R, ⟨true, .nop, none⟩)
      else
        match zaddScore add flags score curscore with
        | none => (R, ⟨false, .nan, none⟩)
        | some (score, newscore) =>
          if score ≠ curscore then (R.set ele score, ⟨true, .updated, newscore⟩)
          else (R, ⟨true, .none, newscore⟩)
    | none =>
      if flags.xx then (R, ⟨true, .nop, none⟩)
      else (R.set ele score, ⟨true, .added, some score⟩)

/-- `zsetAdd` is that of the sorted set, in both encodings. -/
theorem zsetAdd_shows (h : Shows zobj R) (cfg : ZsetCfg) (add : S → S → Option S)
    (random : ℕ → List ℕ) (score : Option S) (ele : Sds) (flags : ZaddFlags) :
    ∃ zobj', zsetAdd cfg add random zobj score ele flags =
        some (zobj', (R.zadd add score ele flags).2) ∧
      Shows zobj' (R.zadd add score ele flags).1 := by
  cases score with
  | none => exact ⟨zobj, rfl, h⟩
  | some score =>
    cases zobj with
    | ziplist zl =>
      have hk : zl.map zzlKey = R.keys := h
      simp only [zsetAdd, Ranking.zadd]
      cases hf : zzlFind ele zl with
      | none =>
        have hno := zzl_score_none hk hf
        have hk' : zl.map zzlKey = (R.erase ele).keys := by
          rw [Ranking.erase_of_score_none hno, hk]
        have hset : Shows (.ziplist (zzlInsert ele score zl)) (R.set ele score) := zzl_set hk'
        simp only [hno]
        split
        · exact ⟨_, rfl, h⟩
        · split
          · obtain ⟨zobj', hz, hs⟩ := zsetConvert_shows hset random .skiplist fun _ hnil => by
              have := (R.set_perm ele score).length_eq
              rw [hnil] at this
              simp at this
            exact ⟨zobj', by simp [hz], hs⟩
          · exact ⟨_, rfl, hset⟩
      | some p =>
        obtain ⟨i, cur⟩ := p
        simp only [zzl_score_some hk hf]
        split
        · exact ⟨_, rfl, h⟩
        · cases hz : zaddScore add flags score cur with
          | none => exact ⟨_, rfl, h⟩
          | some q =>
            obtain ⟨score', newscore⟩ := q
            dsimp only
            split
            · refine ⟨_, rfl, ?_⟩
              obtain ⟨zl₁, zl₂, rfl, rfl, -⟩ := zzlFind_some hf
              rw [zzlDelete_append]
              exact zzl_set (zzl_erase hk)
            · exact ⟨_, rfl, h⟩
    | skiplist zs =>
      obtain ⟨L, hok, hk⟩ := id h
      simp only [zsetAdd, Ranking.zadd]
      cases hd : zs.dict ele with
      | none =>
        have hno := hok.score_none hk hd
        simp only [hno]
        split
        · exact ⟨_, rfl, h⟩
        · obtain ⟨zsl, node, dict, x, L', hz, hda, hkx, hp, hok'⟩ :=
            hok.insert score hd (random 0)
          refine ⟨.skiplist ⟨dict, zsl⟩, by simp [hz, hda], L', hok', ?_⟩
          refine hok'.set_keys hkx hp ?_
          rw [Ranking.erase_of_score_none hno, hk]
      | some p =>
        obtain ⟨e, he, rfl, rfl, hs⟩ := hok.entry hd
        simp only [score_of_mem hk he]
        split
        · exact ⟨_, rfl, h⟩
        · simp only [hs, Option.bind_eq_bind, Option.bind_some]
          cases hz : zaddScore add flags score (keyScore e.key) with
          | none => exact ⟨_, rfl, h⟩
          | some q =>
            obtain ⟨score', newscore⟩ := q
            dsimp only
            split
            · obtain ⟨zsl, node, x, M, L', hz, hkx, hp, hp', hok'⟩ :=
                hok.updateScore he score' (random 0)
              refine ⟨.skiplist ⟨Function.update zs.dict (eleOf e) (some node), zsl⟩,
                by simp [hz], L', hok', ?_⟩
              exact hok'.set_keys hkx hp' (keys_erase_perm hk hp)
            · exact ⟨_, rfl, h⟩

/-! ## The greatest entry -/

theorem zmax_eq (h : Shows zobj R) :
    zmax zobj = some (R.max.map fun k => (keyEle k, keyScore k)) := by
  have hlen := zsetLength_eq h
  unfold zmax
  rw [hlen]
  split
  · rename_i h0
    rw [Ranking.max, List.length_eq_zero_iff.mp h0]
    rfl
  · rename_i h0
    cases zobj with
    | ziplist zl =>
      have hk : zl.map zzlKey = R.keys := h
      rw [Ranking.max, ← hk, List.getLast?_map]
      cases hzl : zl.getLast? with
      | none =>
        rw [List.getLast?_eq_none_iff] at hzl
        rw [← hk, hzl] at h0
        simp at h0
      | some p =>
        simp only [hzl]
        rfl
    | skiplist zs =>
      obtain ⟨L, hok, hk⟩ := h
      have htail : zs.zsl.tail = L.getLast?.map Tower.ptr := by
        rw [← lastPtr_none]
        exact hok.holds.core.shape.tail
      rw [Ranking.max, ← hk, List.getLast?_map]
      cases hL : L.getLast? with
      | none =>
        rw [List.getLast?_eq_none_iff] at hL
        rw [← hk, hL] at h0
        simp at h0
      | some e =>
        obtain ⟨n, hn, hne, hns, -⟩ := hok.holds.core.mem_body (List.mem_of_getLast? hL)
        simp only [htail, hL, Option.map_some, hn, hne, hns, Option.bind_eq_bind, Option.bind_some]
        rfl

/-! ## Runs -/

/-- A change of the sorted set. -/
def Ranking.step (add : S → S → Option S) (R : Ranking S) : ZsetOp S → Ranking S × ZsetAns S
  | .add _ score ele flags =>
    ((R.zadd add score ele flags).1, .add (R.zadd add score ele flags).2)
  | .del ele => (R.erase ele, .del (R.score ele).isSome)
  | .shrink _ => (R, .shrink)

/-- A run of the sorted set. -/
def Ranking.run (add : S → S → Option S) (R : Ranking S) :
    List (ZsetCfg × ZsetOp S) → Ranking S × List (ZsetAns S)
  | [] => (R, [])
  | (_, op) :: ops =>
    let (R, ans) := R.step add op
    let (R, anss) := Ranking.run add R ops
    (R, ans :: anss)

theorem zsetStep_shows (h : Shows zobj R) (cfg : ZsetCfg) (add : S → S → Option S)
    (op : ZsetOp S) :
    ∃ zobj', zsetStep cfg add zobj op = some (zobj', (R.step add op).2) ∧
      Shows zobj' (R.step add op).1 := by
  cases op with
  | add random score ele flags =>
    obtain ⟨zobj', hz, hs⟩ := zsetAdd_shows h cfg add random score ele flags
    exact ⟨zobj', by simp [zsetStep, hz, Ranking.step], hs⟩
  | del ele =>
    obtain ⟨zobj', hz, hs⟩ := zsetDel_shows h ele
    exact ⟨zobj', by simp [zsetStep, hz, Ranking.step], hs⟩
  | shrink maxelelen =>
    obtain ⟨zobj', hz, hs⟩ := zsetConvertToZiplistIfNeeded_shows h cfg maxelelen
    exact ⟨zobj', by simp [zsetStep, hz, Ranking.step], hs⟩

theorem zsetRun_shows (h : Shows zobj R) (add : S → S → Option S)
    (ops : List (ZsetCfg × ZsetOp S)) :
    ∃ zobj', zsetRun add zobj ops = some (zobj', (R.run add ops).2) ∧
      Shows zobj' (R.run add ops).1 := by
  induction ops generalizing zobj R with
  | nil => exact ⟨zobj, rfl, h⟩
  | cons p ops ih =>
    obtain ⟨cfg, op⟩ := p
    obtain ⟨zobj₁, hz₁, hs₁⟩ := zsetStep_shows h cfg add op
    obtain ⟨zobj₂, hz₂, hs₂⟩ := ih hs₁
    exact ⟨zobj₂, by simp [zsetRun, hz₁, hz₂, Ranking.run], hs₂⟩

theorem zsetNew_shows (encoding : ZsetEncoding) :
    Shows (zsetNew encoding : Zobj S) Ranking.empty := by
  cases encoding with
  | ziplist => exact createZsetZiplistObject_shows
  | skiplist => exact createZsetObject_shows

/-- The nodes that are allocated: one for each member, and the header. -/
theorem Shows.allocated (h : Shows (.skiplist zs) R) :
    ∃ ps : List ℕ, ps.Nodup ∧ ps.length = R.keys.length + 1 ∧
      ∀ p, (zs.zsl.heap p).isSome ↔ p ∈ ps := by
  obtain ⟨L, hok, hk⟩ := h
  have hs := hok.holds.core.shape
  refine ⟨(zs.zsl.frame.nodes L).map Tower.ptr, hs.nodup, ?_, fun p => ?_⟩
  · rw [← hk]
    simp [Frame.nodes]
  · have := hs.owned p
    simpa [Zskiplist.frame] using this

/-- **Sorted set objects are sorted sets**: from a new object of either encoding, for every sequence
of changes, with every configuration of the ziplist's limits and every draw of the skip list's
levels, no assertion fails and no freed node is followed; every answer is that of the sorted set,
and so is every later read of scores, lengths, ranks and the greatest entry; and no node is left
behind. A ziplist is taken as the list of its pairs of element and score. -/
theorem zset_refines (encoding : ZsetEncoding) (add : S → S → Option S)
    (ops : List (ZsetCfg × ZsetOp S)) :
    let R := (Ranking.empty.run add ops).1
    ∃ zobj, zsetRun add (zsetNew encoding) ops = some (zobj, (Ranking.empty.run add ops).2) ∧
      (∀ ele, zsetScore zobj ele = some (R.score ele)) ∧ zsetLength zobj = R.keys.length ∧
      (R.keys ≠ [] → ∀ ele reverse, zsetRank zobj ele reverse = some ((R.rank ele).map fun i =>
        if reverse then (R.keys.length : ℤ) - (i + 1) else i)) ∧
      zmax zobj = some (R.max.map fun k => (keyEle k, keyScore k)) ∧
      ∀ zs, zobj = .skiplist zs → ∃ ps : List ℕ, ps.Nodup ∧ ps.length = R.keys.length + 1 ∧
        ∀ p, (zs.zsl.heap p).isSome ↔ p ∈ ps := by
  intro R
  obtain ⟨zobj, hz, hs⟩ := zsetRun_shows (zsetNew_shows encoding) add ops
  refine ⟨zobj, hz, zsetScore_eq hs, zsetLength_eq hs, fun hne => zsetRank_eq hs hne, zmax_eq hs,
    fun zs h => ?_⟩
  subst h
  exact hs.allocated

end CrdtRedis
