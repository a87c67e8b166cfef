import CrdtRedis.RwfZset
import CrdtRedis.Zset.Refine

/-!
# The RWF priority queue on its sorted set (`t_rwfzset.c`)

The queue keeps its elements in a table and what it shows in one sorted set object. The effect
phases reach the object through `getZsetOrCreate`, `zsetAdd` and `zsetDel`, and the read commands
answer from it. `rwfzStoreObj` is the queue with this object in each replica, where each replica has
its own limits of the ziplist and its own random levels.

`rwfzStoreView` shows it as the queue of elements with a score each (`rwfzObj`), so what holds of
the elements holds of it, and what is read from the object is the same wherever the elements are.
-/

namespace CrdtRedis

open Broadcast

variable {n : ℕ}

/-! ## The store of a replica -/

/-- `getZsetOrCreate`. -/
def getZsetOrCreate {S : Type} [Zero S] (cfg : ZsetCfg) (zobj : Option (Zobj S)) (ele : Sds) :
    Zobj S :=
  match zobj with
  | some zobj => zobj
  | none =>
    if cfg.maxZiplistEntries = 0 ∨ cfg.maxZiplistValue < ele.length then createZsetObject
    else createZsetZiplistObject

/-- What a replica stores for a queue. -/
structure RwfzStore (n : ℕ) where
  table : Sds → Option (Rwfze n)
  zset : Option (Zobj ℚ)
  /-- What `random` draws for the levels of new nodes, for each call of `zsetAdd` from now on. -/
  draws : ℕ → ℕ → List ℕ

namespace RwfzStore

variable (cfg : ZsetCfg) (s : RwfzStore n) (ele : Sds)

/-- `zsetDel` on the sorted set of the queue. -/
def del : Option (RwfzStore n) := do
  let (zobj, _) ← zsetDel (getZsetOrCreate cfg s.zset ele) ele
  some { s with zset := some zobj }

/-- `zsetAdd` with `ZADD_NONE` on the sorted set of the queue. -/
def add (score : ℚ) : Option (RwfzStore n) := do
  let (zobj, _) ← zsetAdd cfg (fun a b => some (a + b)) (s.draws 0)
    (getZsetOrCreate cfg s.zset ele) (some score) ele zaddNone
  some { s with zset := some zobj, draws := fun i => s.draws (i + 1) }

/-- The element in the table. -/
def put (e : Rwfze n) : RwfzStore n := { s with table := Function.update s.table ele (some e) }

/-- `removeFunc`. -/
def removeFunc (e : Rwfze n) (t : Clock n) : Option (RwfzStore n × Rwfze n) :=
  match removeCheck e.header t with
  | (h, true) => do
    let s ← s.del cfg ele
    some (s, { header := h, innate := 0, acquired := 0 })
  | (h, false) => some (s, { e with header := h })

/-- The effect phases of `rwfzaddCommand`, `rwfzincrbyCommand` and `rwfzremCommand`. -/
def effect (r : Fin n) (m : RwfzMsg n) : Option (RwfzStore n) := do
  let (s, e) ← s.removeFunc cfg ele ((s.table ele).getD (rwfzeNew r)) m.t
  match m with
  | .add v t =>
    match addCheck e.header t with
    | (h, true) => do
      let e := { e with header := h, innate := v }
      let s ← s.add cfg ele e.score
      some (s.put ele e)
    | (h, false) => some (s.put ele { e with header := h })
  | .upd v t =>
    match updateCheck e.header t with
    | (h, true) => do
      let e := { e with header := h, acquired := e.acquired + v }
      let s ← s.add cfg ele e.score
      some (s.put ele e)
    | (h, false) => some (s.put ele { e with header := h })
  | .rem _ => some (s.put ele e)

/-- The prepare phases, which do not look at the sorted set. -/
def prepare (r : Fin n) (o : ZCmd) : RwfzStore n × Option (RwfzMsg n) :=
  let p := rwfzPrepare r ⟨s.table ele, none⟩ o
  ({ s with table := Function.update s.table ele p.1.ele }, p.2.toOption)

/-- `rwfzscoreCommand`: the null reply is `none`. -/
def rwfzscore : Option (Option ℚ) :=
  match s.zset with
  | none => some none
  | some zobj => zsetScore zobj ele

/-- `rwfzmaxCommand`: the empty reply is `none`. -/
def rwfzmax : Option (Option (Sds × ℚ)) :=
  match s.zset with
  | none => some none
  | some zobj => zmax zobj

end RwfzStore

/-- The queue with its sorted set. A replica where an assertion failed or a freed node was followed
has no store. -/
def rwfzStoreObj (n : ℕ) (cfg : Fin n → ZsetCfg) (draws : Fin n → ℕ → ℕ → List ℕ) :
    Obj (Fin n) (Option (RwfzStore n)) (Sds × ZCmd) (Sds × RwfzMsg n) where
  init r := some ⟨fun _ => none, none, draws r⟩
  prepare r s c :=
    match s with
    | none => (none, none)
    | some s => (some (s.prepare c.1 r c.2).1, (s.prepare c.1 r c.2).2.map (c.1, ·))
  effect r s c := s.bind fun s => s.effect (cfg r) c.1 r c.2

/-! ## The sorted set of a store -/

/-- The store shows the sorted set `R`, if there is an object at all. -/
def StoreShows (s : RwfzStore n) (R : Ranking ℚ) : Prop :=
  match s.zset with
  | none => R = Ranking.empty
  | some zobj => Shows zobj R

variable {cfg : ZsetCfg} {s : RwfzStore n} {R : Ranking ℚ} {ele : Sds}

theorem StoreShows.getZsetOrCreate (h : StoreShows s R) (cfg : ZsetCfg) (ele : Sds) :
    Shows (getZsetOrCreate cfg s.zset ele) R := by
  unfold StoreShows at h
  unfold CrdtRedis.getZsetOrCreate
  cases hz : s.zset with
  | some zobj => rw [hz] at h; exact h
  | none =>
    rw [hz] at h
    obtain rfl : R = Ranking.empty := h
    dsimp only
    split
    · exact createZsetObject_shows
    · exact createZsetZiplistObject_shows

theorem StoreShows.del (h : StoreShows s R) (cfg : ZsetCfg) (ele : Sds) :
    ∃ s', s.del cfg ele = some s' ∧ s'.table = s.table ∧ StoreShows s' (R.erase ele) := by
  obtain ⟨zobj, hz, hs⟩ := zsetDel_shows (h.getZsetOrCreate cfg ele) ele
  exact ⟨{ s with zset := some zobj }, by simp [RwfzStore.del, hz], rfl, hs⟩

/-- Without flags `zsetAdd` sets the score. -/
theorem Ranking.zadd_none (add : ℚ → ℚ → Option ℚ) (R : Ranking ℚ) (score : ℚ) (ele : Sds) :
    (R.zadd add (some score) ele zaddNone).1 = R.set ele score := by
  unfold Ranking.zadd
  cases hs : R.score ele with
  | none => rfl
  | some cur =>
    simp only [zaddScore, zaddNone, Bool.false_eq_true, if_false]
    split
    · rfl
    · rename_i hne
      obtain rfl : score = cur := by simpa using hne
      exact (Ranking.set_of_score hs).symm

theorem StoreShows.add (h : StoreShows s R) (cfg : ZsetCfg) (ele : Sds) (score : ℚ) :
    ∃ s', s.add cfg ele score = some s' ∧ s'.table = s.table ∧ StoreShows s' (R.set ele score) := by
  obtain ⟨zobj, hz, hs⟩ := zsetAdd_shows (h.getZsetOrCreate cfg ele) cfg (fun a b => some (a + b))
    (s.draws 0) (some score) ele zaddNone
  rw [Ranking.zadd_none] at hs
  exact ⟨{ s with zset := some zobj, draws := fun i => s.draws (i + 1) },
    by simp [RwfzStore.add, hz], rfl, hs⟩

theorem StoreShows.rwfzscore (h : StoreShows s R) (ele : Sds) :
    s.rwfzscore ele = some (R.score ele) := by
  unfold StoreShows at h
  unfold RwfzStore.rwfzscore
  cases hz : s.zset with
  | none => rw [hz] at h; rw [h]; rfl
  | some zobj => rw [hz] at h; exact zsetScore_eq h ele

theorem StoreShows.rwfzmax (h : StoreShows s R) :
    s.rwfzmax = some (R.max.map fun k => (keyEle k, keyScore k)) := by
  unfold StoreShows at h
  unfold RwfzStore.rwfzmax
  cases hz : s.zset with
  | none => rw [hz] at h; rw [h]; rfl
  | some zobj => rw [hz] at h; exact zmax_eq h

/-! ## The effect phases -/

/-- The store `s'` of a replica after an effect on `ele` that leaves the cell `c`. -/
structure After (s s' : RwfzStore n) (R : Ranking ℚ) (ele : Sds) (c : RwfzCell n) : Prop where
  table : s'.table = Function.update s.table ele c.ele
  shows : ∃ R', StoreShows s' R' ∧ R'.score ele = c.zset ∧
    ∀ ele', ele' ≠ ele → R'.score ele' = R.score ele'

theorem StoreShows.removeFunc (h : StoreShows s R) (cfg : ZsetCfg) (ele : Sds) (e : Rwfze n)
    (t : Clock n) :
    ∃ s' R', s.removeFunc cfg ele e t = some (s', (rwfzRemoveFunc e (R.score ele) t).1) ∧
      s'.table = s.table ∧ StoreShows s' R' ∧
      R'.score ele = (rwfzRemoveFunc e (R.score ele) t).2 ∧
      ∀ ele', ele' ≠ ele → R'.score ele' = R.score ele' := by
  unfold RwfzStore.removeFunc rwfzRemoveFunc
  rcases hc : removeCheck e.header t with ⟨h', _ | _⟩
  · exact ⟨s, R, rfl, rfl, h, rfl, fun _ _ => rfl⟩
  · obtain ⟨s', hs', htab, hsh⟩ := h.del cfg ele
    refine ⟨s', R.erase ele, by simp [hs'], htab, hsh, ?_, fun ele' hne => ?_⟩
    · rw [Ranking.score_erase, if_pos rfl]
    · rw [Ranking.score_erase, if_neg hne]

/-- A score is written. -/
theorem StoreShows.after_add {s₀ : RwfzStore n} {R₀ : Ranking ℚ} (h : StoreShows s R)
    (htab : s.table = s₀.table) (hR : ∀ ele', ele' ≠ ele → R.score ele' = R₀.score ele')
    (e : Rwfze n) :
    ∃ s', (s.add cfg ele e.score).bind (fun s => some (s.put ele e)) = some s' ∧
      After s₀ s' R₀ ele ⟨some e, some e.score⟩ := by
  obtain ⟨s', hs', htab', hsh⟩ := h.add cfg ele e.score
  refine ⟨s'.put ele e, by simp [hs'], by simp [RwfzStore.put, htab', htab], R.set ele e.score,
    hsh, ?_, fun ele' hne => ?_⟩
  · rw [Ranking.score_set, if_pos rfl]
  · rw [Ranking.score_set, if_neg hne, hR ele' hne]

/-- The effect phases on the store are those on the cell of the element. -/
theorem StoreShows.effect (h : StoreShows s R) (cfg : ZsetCfg) (r : Fin n) (ele : Sds)
    (m : RwfzMsg n) :
    ∃ s', s.effect cfg ele r m = some s' ∧
      After s s' R ele (rwfzEffect r ⟨s.table ele, R.score ele⟩ m) := by
  obtain ⟨s₁, R₁, hs₁, htab, hsh, hsc, hot⟩ :=
    h.removeFunc cfg ele ((s.table ele).getD (rwfzeNew r)) m.t
  have hget : RwfzCell.get (⟨s.table ele, R.score ele⟩ : RwfzCell n) r =
    (s.table ele).getD (rwfzeNew r) := rfl
  simp only [RwfzStore.effect, rwfzEffect, hget, hs₁, Option.bind_eq_bind, Option.bind_some]
  generalize rwfzRemoveFunc ((s.table ele).getD (rwfzeNew r)) (R.score ele) m.t = p at hsc ⊢
  obtain ⟨e, z⟩ := p
  -- Without a write to the sorted set.
  have hput : ∀ e' : Rwfze n, After s (s₁.put ele e') R ele ⟨some e', z⟩ := fun e' =>
    ⟨by simp [RwfzStore.put, htab], R₁, hsh, hsc, hot⟩
  cases m with
  | add v t =>
    dsimp only
    rcases hc : addCheck e.header t with ⟨h', _ | _⟩
    · exact ⟨_, rfl, hput _⟩
    · exact hsh.after_add htab hot _
  | upd v t =>
    dsimp only
    rcases hc : updateCheck e.header t with ⟨h', _ | _⟩
    · exact ⟨_, rfl, hput _⟩
    · exact hsh.after_add htab hot _
  | rem t => exact ⟨_, rfl, hput _⟩

/-! ## The queue of elements -/

/-- The prepare phases do not depend on the score. -/
theorem rwfzPrepare_of_ele (r : Fin n) (e : Option (Rwfze n)) (z z' : Option ℚ) (o : ZCmd) :
    rwfzPrepare r ⟨e, z⟩ o =
      (⟨(rwfzPrepare r ⟨e, z'⟩ o).1.ele, z⟩, (rwfzPrepare r ⟨e, z'⟩ o).2) := by
  cases o with
  | zadd argc v =>
    simp only [rwfzPrepare]
    split <;> rfl
  | zincrby argc v =>
    simp only [rwfzPrepare]
    split <;> rfl
  | zrem argc =>
    simp only [rwfzPrepare]
    split <;> rfl

/-- The cells of a store: the table, and what the sorted set answers. -/
def storeCells (s : Option (RwfzStore n)) (ele : Sds) : RwfzCell n :=
  match s with
  | none => ⟨none, none⟩
  | some s => ⟨s.table ele, (s.rwfzscore ele).join⟩

/-- A replica that runs, with a sorted set. -/
def StoreOk (s : Option (RwfzStore n)) : Prop := ∃ s' R, s = some s' ∧ StoreShows s' R

theorem StoreShows.cells (h : StoreShows s R) (ele : Sds) :
    storeCells (some s) ele = ⟨s.table ele, R.score ele⟩ := by
  simp [storeCells, h.rwfzscore]

theorem storeCells_prepare {s : RwfzStore n} (h : StoreShows s R) (r : Fin n) (c : Sds × ZCmd) :
    (rwfzObj n).prepare r (storeCells (some s)) c =
      (storeCells (some (s.prepare c.1 r c.2).1), (s.prepare c.1 r c.2).2.map (c.1, ·)) := by
  obtain ⟨ele, o⟩ := c
  have hp := rwfzPrepare_of_ele r (s.table ele) (R.score ele) none o
  have hsh : StoreShows (s.prepare ele r o).1 R := h
  simp only [rwfzObj, Obj.keyed, rwfzEleObj, h.cells, hp]
  refine Prod.ext (funext fun k => ?_) rfl
  dsimp only
  by_cases hk : k = ele
  · subst hk
    rw [Function.update_self, hsh.cells]
    simp [RwfzStore.prepare]
  · rw [Function.update_of_ne hk, hsh.cells, h.cells]
    simp [RwfzStore.prepare, hk]

theorem storeCells_effect {s : RwfzStore n} (h : StoreShows s R) (cfg : ZsetCfg) (r : Fin n)
    (c : Sds × RwfzMsg n) :
    StoreOk (s.effect cfg c.1 r c.2) ∧
      storeCells (s.effect cfg c.1 r c.2) = (rwfzObj n).effect r (storeCells (some s)) c := by
  obtain ⟨ele, m⟩ := c
  obtain ⟨s', hs', htab, R', hsh, hsc, hot⟩ := h.effect cfg r ele m
  refine ⟨⟨s', R', hs', hsh⟩, funext fun k => ?_⟩
  simp only [rwfzObj, Obj.keyed, rwfzEleObj, h.cells, hs', hsh.cells]
  by_cases hk : k = ele
  · subst hk
    rw [Function.update_self, htab, hsc, Function.update_self]
  · rw [Function.update_of_ne hk, htab, hot k hk, Function.update_of_ne hk, h.cells]

section View

variable (cfg : Fin n → ZsetCfg) (draws : Fin n → ℕ → ℕ → List ℕ)

theorem storeOk_init (r : Fin n) : StoreOk ((rwfzStoreObj n cfg draws).init r) :=
  ⟨_, Ranking.empty, rfl, rfl⟩

theorem storeOk_prepare {r : Fin n} {s s₁ : Option (RwfzStore n)} {o : Sds × ZCmd}
    {m : Option (Sds × RwfzMsg n)} (h : StoreOk s)
    (hp : (rwfzStoreObj n cfg draws).prepare r s o = (s₁, m)) :
    StoreOk s₁ ∧ (rwfzObj n).prepare r (storeCells s) o = (storeCells s₁, m) := by
  obtain ⟨s, R, rfl, hsh⟩ := h
  obtain ⟨rfl, rfl⟩ := Prod.mk.inj hp
  exact ⟨⟨_, R, rfl, hsh⟩, storeCells_prepare hsh r o⟩

theorem storeOk_effect {r : Fin n} {s : Option (RwfzStore n)} {m : Sds × RwfzMsg n}
    (h : StoreOk s) :
    StoreOk ((rwfzStoreObj n cfg draws).effect r s m) ∧
      storeCells ((rwfzStoreObj n cfg draws).effect r s m) =
        (rwfzObj n).effect r (storeCells s) m := by
  obtain ⟨s, R, rfl, hsh⟩ := h
  exact storeCells_effect hsh (cfg r) r m

/-- The queue on its sorted set, shown as the queue of elements. -/
def rwfzStoreView : View (rwfzStoreObj n cfg draws) (rwfzObj n) where
  st _ s := storeCells s
  msg m := some m
  inv _ s := StoreOk s
  init _ := rfl
  inv_init r := storeOk_init cfg draws r
  inv_prepare h _ hp := ⟨(storeOk_prepare cfg draws h hp).1, fun _ _ => trivial⟩
  inv_effect h _ := (storeOk_effect cfg draws h).1
  reject h _ hp := .inr ⟨_, (storeOk_prepare cfg draws h hp).2⟩
  hide _ _ _ hm := by cases hm
  accept h _ hp hm := by
    cases hm
    exact ⟨_, (storeOk_prepare cfg draws h hp).2⟩
  effect_hide _ _ hm := by cases hm
  effect h _ hm := by
    cases hm
    exact (storeOk_effect cfg draws h).2

end View

section Runs

variable {cfg : Fin n → ZsetCfg} {draws : Fin n → ℕ → ℕ → List ℕ}
  {s : Sys (Fin n) (Option (RwfzStore n)) (Sds × RwfzMsg n)}

/-- Every replica runs, and its cells are those of a run of the queue of elements. -/
theorem rwfzStore_run (hs : (rwfzStoreObj n cfg draws).Reach anyOrder s) :
    (rwfzObj n).Reach anyOrder ((rwfzStoreView cfg draws).sys s) ∧ ∀ r, StoreOk (s.st r) :=
  ⟨(rwfzStoreView cfg draws).reach_any (fun _ _ _ => trivial) hs,
    ((rwfzStoreView cfg draws).reach_inv (fun _ _ _ _ _ => trivial) hs).1⟩

/-- **What the read commands answer**: in every run, with every order of delivery, every
configuration and every random level, every replica runs; `rwfzscore` answers the score of an
element that exists and nothing for one that does not; and `rwfzmax` answers nothing if no element
exists, and otherwise one that does, such that no other has a greater score, or the same score and a
greater name. -/
theorem rwfzStore_replies (hs : (rwfzStoreObj n cfg draws).Reach anyOrder s) (r : Fin n) :
    ∃ st, s.st r = some st ∧
      (∀ k, let e := (st.table k).getD (rwfzeNew r)
        st.rwfzscore k = some (if e.header.exists then some (e.innate + e.acquired) else none)) ∧
      ((∀ k, st.rwfzscore k = some none) ∧ st.rwfzmax = some none ∨
        ∃ k v, st.rwfzmax = some (some (k, v)) ∧ st.rwfzscore k = some (some v) ∧
          ∀ k' v', st.rwfzscore k' = some (some v') → v' < v ∨ v' = v ∧ k' ≤ k) := by
  obtain ⟨hreach, hok⟩ := rwfzStore_run hs
  obtain ⟨st, R, hst, hsh⟩ := hok r
  refine ⟨st, hst, fun k => ?_, ?_⟩
  · have hshown := rwfzEle_shown ((keyedView _ k).reach_any (fun _ _ _ => trivial) hreach) r
    have hcell : ((keyedView (fun _ => rwfzEleObj n) k).sys
        ((rwfzStoreView cfg draws).sys s)).st r = ⟨st.table k, R.score k⟩ := by
      change storeCells (s.st r) k = _
      rw [hst, hsh.cells]
    rw [hcell] at hshown
    have hz : R.score k = _ := hshown.zset
    intro e
    rw [hsh.rwfzscore, hz]
    rfl
  · cases hmax : R.max with
    | none =>
      have hnil : R.keys = [] := List.getLast?_eq_none_iff.mp hmax
      refine .inl ⟨fun k => ?_, by rw [hsh.rwfzmax, hmax]; rfl⟩
      rw [hsh.rwfzscore, Ranking.score, hnil]
      rfl
    | some k =>
      obtain ⟨hk, hle⟩ := Ranking.max_eq_some hmax
      refine .inr ⟨keyEle k, keyScore k, by rw [hsh.rwfzmax, hmax]; rfl, ?_, fun k' v' h => ?_⟩
      · rw [hsh.rwfzscore]
        exact congrArg some (Ranking.score_eq_some.mpr hk)
      · rw [hsh.rwfzscore, Option.some.injEq, Ranking.score_eq_some] at h
        exact Prod.Lex.le_iff.mp (hle _ h)

/-- **The queue converges in what it answers**: in every run, replicas that applied the same
messages answer the same, whatever the encodings of their sorted sets. -/
theorem rwfzStore_converges (hs : (rwfzStoreObj n cfg draws).Reach anyOrder s) {q r : Fin n}
    (hD : s.recv q = s.recv r) :
    (∀ k, (s.st q).bind (·.rwfzscore k) = (s.st r).bind (·.rwfzscore k)) ∧
      (s.st q).bind (·.rwfzmax) = (s.st r).bind (·.rwfzmax) := by
  obtain ⟨hreach, hok⟩ := rwfzStore_run hs
  obtain ⟨st, R, hst, hsh⟩ := hok q
  obtain ⟨st', R', hst', hsh'⟩ := hok r
  -- The elements show the same scores, so the sorted sets are the same.
  obtain rfl : R = R' := Ranking.ext_score fun k => by
    have hz := rwfzEle_zset_agree ((keyedView _ k).reach_any (fun _ _ _ => trivial) hreach)
      (View.sys_recv_congr _ (View.sys_recv_congr _ hD))
    change (storeCells (s.st q) k).zset = (storeCells (s.st r) k).zset at hz
    rwa [hst, hst', hsh.cells, hsh'.cells] at hz
  rw [hst, hst']
  simp only [Option.bind_some, hsh.rwfzscore, hsh'.rwfzscore, hsh.rwfzmax, hsh'.rwfzmax,
    implies_true, and_self]

end Runs

/-! ## A run -/

/-- Replica 0 converts to a skip list at the second entry, replica 1 never. -/
def demoCfg (r : Fin 2) : ZsetCfg := ⟨if r = 0 then 1 else 128, 64⟩

def demoDraws (_ : Fin 2) (i j : ℕ) : List ℕ := List.replicate (i + j) 0

/-- Adds, increments and a remove of three elements, delivered in different orders. -/
def storeDemo : List (Ev (Fin 2) (Sds × ZCmd)) :=
  let a : Sds := ['a']
  let b : Sds := ['b']
  let c : Sds := ['c']
  [.op 0 (a, .zadd 4 (some 5)) 0, .op 0 (b, .zadd 4 (some 7)) 1, .op 0 (c, .zadd 4 (some 5)) 2,
    .recv 1 2, .recv 1 0, .recv 1 1, .op 1 (b, .zrem 3) 3, .op 1 (a, .zincrby 4 (some 1)) 4,
    .recv 0 4, .recv 0 3]

theorem storeDemo_reach : (rwfzStoreObj 2 demoCfg demoDraws).Reach anyOrder
    ((rwfzStoreObj 2 demoCfg demoDraws).runOf storeDemo) :=
  Obj.reach_runOf (g := fun _ _ => true) (fun _ _ _ => trivial) storeDemo (by decide +kernel)

/-- In the run the greatest entry is the incremented one, at both replicas. -/
theorem rwfzStore_converges_demo :
    let s := (rwfzStoreObj 2 demoCfg demoDraws).runOf storeDemo
    (s.st 0).bind (·.rwfzmax) = some (some (['a'], 6)) ∧
      (s.st 0).bind (·.rwfzmax) = (s.st 1).bind (·.rwfzmax) :=
  ⟨by decide +kernel, (rwfzStore_converges storeDemo_reach (q := 0) (r := 1) (by decide +kernel)).2⟩

/-- The element that was removed has no score. -/
theorem rwfzStore_replies_demo :
    ∃ st, ((rwfzStoreObj 2 demoCfg demoDraws).runOf storeDemo).st 0 = some st ∧
      let e := (st.table ['b']).getD (rwfzeNew 0)
      st.rwfzscore ['b'] =
        some (if e.header.exists then some (e.innate + e.acquired) else none) := by
  obtain ⟨st, hst, h, -⟩ := rwfzStore_replies storeDemo_reach 0
  exact ⟨st, hst, h ['b']⟩

end CrdtRedis
