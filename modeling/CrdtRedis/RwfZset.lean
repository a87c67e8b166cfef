import Mathlib.Algebra.BigOperators.Group.Finset.Basic
import Mathlib.Algebra.Order.Field.Rat
import CrdtRedis.Crdt
import CrdtRedis.RWFramework

/-!
# The RWF priority queue (`t_rwfzset.c`)

An element of the queue (`Rwfze`) has the framework's header, the value of the add it shows
(`innate`) and the sum of the increments (`acquired`). `RwfzCell` is what a replica stores for one
element name: the element's metadata, if it was created, and its score in the visible sorted set,
if it is a member. A queue (`rwfzObj`) is a map from element names to such cells.

* `rwfz_convergence`: the metadata of an element is a function of the set of messages applied to it
  (`RwfzClosed`), in every order of delivery.
* `rwfz_visible`: the sorted set shows the elements that exist, with their scores.
-/

namespace CrdtRedis

open Broadcast

variable {n : ℕ}

/-- `rwfze`. -/
structure Rwfze (n : ℕ) where
  header : Reh n
  innate : ℚ
  acquired : ℚ

def rwfzeNew (r : Fin n) : Rwfze n := ⟨rehInit r, 0, 0⟩

/-- `SCORE`. -/
def Rwfze.score (e : Rwfze n) : ℚ := e.innate + e.acquired

/-- What a replica stores for one element name: the entry of the table `_rwfzets_` and the score
in the sorted set. -/
structure RwfzCell (n : ℕ) where
  ele : Option (Rwfze n)
  zset : Option ℚ

/-- `GET_RWFZE` with `create`: the element, which is new if there was none. -/
def RwfzCell.get (c : RwfzCell n) (r : Fin n) : Rwfze n := c.ele.getD (rwfzeNew r)

/-- The messages of the queue: the value of an add, the increment of an update. -/
abbrev RwfzMsg (n : ℕ) := RwfMsg n ℚ ℚ

/-- `removeFunc`: the element and its score in the sorted set. -/
def rwfzRemoveFunc (e : Rwfze n) (z : Option ℚ) (t : Clock n) : Rwfze n × Option ℚ :=
  match removeCheck e.header t with
  | (h, true) => ({ header := h, innate := 0, acquired := 0 }, none)
  | (h, false) => ({ e with header := h }, z)

/-- The effect phases of `rwfzaddCommand`, `rwfzincrbyCommand` and `rwfzremCommand`. -/
def rwfzEffect (r : Fin n) (c : RwfzCell n) (m : RwfzMsg n) : RwfzCell n :=
  let (e, z) := rwfzRemoveFunc (c.get r) c.zset m.t
  match m with
  | .add v t =>
    match addCheck e.header t with
    | (h, true) =>
      let e := { e with header := h, innate := v }
      ⟨some e, some e.score⟩
    | (h, false) => ⟨some { e with header := h }, z⟩
  | .upd v t =>
    match updateCheck e.header t with
    | (h, true) =>
      let e := { e with header := h, acquired := e.acquired + v }
      ⟨some e, some e.score⟩
    | (h, false) => ⟨some { e with header := h }, z⟩
  | .rem _ => ⟨some e, z⟩

/-- The prepare phases. Only the add creates the element it names. -/
def rwfzPrepare (r : Fin n) (c : RwfzCell n) :
    ZCmd → RwfzCell n × Except ReplyErr (RwfzMsg n)
  | .zadd argc v =>
    match checkArgc 4 argc, checkArg .notFloat v with
    | .error err, _ => (c, .error err)
    | _, .error err => (c, .error err)
    | _, .ok v =>
      let e := c.get r
      ({ c with ele := some e },
        if e.header.exists then .error .eleExist else .ok (.add v e.header.current))
  | .zincrby argc v =>
    match checkArgc 4 argc, checkArg .notFloat v, c.ele with
    | .error err, _, _ => (c, .error err)
    | _, .error err, _ => (c, .error err)
    | _, _, none => (c, .error .eleNexist)
    | _, .ok v, some e =>
      (c, if e.header.exists then .ok (.upd v e.header.current) else .error .eleNexist)
  | .zrem argc =>
    match checkArgc 3 argc, c.ele with
    | .error err, _ => (c, .error err)
    | _, none => (c, .error .eleNexist)
    | _, some e =>
      (c, if e.header.exists then .ok (.rem (vcNow e.header.current)) else .error .eleNexist)

/-- One element of the queue as a replicated object. -/
def rwfzEleObj (n : ℕ) : Obj (Fin n) (RwfzCell n) ZCmd (RwfzMsg n) where
  init _ := ⟨none, none⟩
  prepare r c o := ((rwfzPrepare r c o).1, (rwfzPrepare r c o).2.toOption)
  effect := rwfzEffect

/-- The queue: one object for each element name. -/
def rwfzObj (n : ℕ) : Obj (Fin n) (Sds → RwfzCell n) (Sds × ZCmd) (Sds × RwfzMsg n) :=
  Obj.keyed fun _ => rwfzEleObj n

/-! ## The element in the framework -/

/-- What the queue adds to the framework's header: `innate` and `acquired`. -/
def rwfzPayload (n : ℕ) : Payload n ℚ ℚ ℚ (ℚ × ℚ) where
  new _ := (0, 0)
  clear _ := (0, 0)
  add v x := (v, x.2)
  upd v x := (x.1, x.2 + v)
  stamp _ _ v := v
  clear_new _ := rfl

/-- The metadata of an element, as an element of the framework. -/
def Rwfze.toRwf (e : Rwfze n) : RwfEle n (ℚ × ℚ) := ⟨e.header, (e.innate, e.acquired)⟩

theorem rwfzRemoveFunc_toRwf (e : Rwfze n) (z : Option ℚ) (t : Clock n) :
    (rwfzRemoveFunc e z t).1.toRwf = rwfRemove (rwfzPayload n) e.toRwf t := by
  rcases hc : removeCheck e.header t with ⟨h, _ | _⟩
  · simp only [rwfzRemoveFunc, rwfRemove, Rwfze.toRwf, hc]
  · simp only [rwfzRemoveFunc, rwfRemove, Rwfze.toRwf, hc]
    rfl

/-- The effect phases of the queue are those of the framework. -/
theorem rwfzEffect_toRwf (r : Fin n) (c : RwfzCell n) (m : RwfzMsg n) :
    ((rwfzEffect r c m).get r).toRwf = rwfEffect (rwfzPayload n) (c.get r).toRwf m := by
  have hr := rwfzRemoveFunc_toRwf (c.get r) c.zset m.t
  unfold rwfzEffect rwfEffect
  rw [← hr]
  rcases rwfzRemoveFunc (c.get r) c.zset m.t with ⟨e, z⟩
  cases m with
  | add v t =>
    rcases hc : addCheck e.header t with ⟨h, _ | _⟩
    all_goals
      simp only [Rwfze.toRwf, hc]
      rfl
  | upd v t =>
    rcases hc : updateCheck e.header t with ⟨h, _ | _⟩
    all_goals
      simp only [Rwfze.toRwf, hc]
      rfl
  | rem t => rfl

/-- An accepted command of the queue is an accepted command of the framework; no prepare phase
changes the metadata. -/
theorem rwfzPrepare_get (r : Fin n) (c : RwfzCell n) (o : ZCmd) :
    (rwfzPrepare r c o).1.get r = c.get r := by
  cases o with
  | zadd argc v => simp only [rwfzPrepare]; split <;> rfl
  | zincrby argc v => simp only [rwfzPrepare]; split <;> rfl
  | zrem argc => simp only [rwfzPrepare]; split <;> rfl

theorem rwfzPrepare_some {r : Fin n} {c : RwfzCell n} {o : ZCmd} {m : RwfzMsg n}
    (h : (rwfzPrepare r c o).2.toOption = some m) :
    ∃ o', rwfPrepare (rwfzPayload n) r (c.get r).toRwf o' = some m := by
  cases o with
  | zadd argc v =>
    simp only [rwfzPrepare] at h
    split at h
    · cases h
    · cases h
    · rename_i v _ _
      split at h
      · cases h
      · rename_i hex
        exact ⟨.add v, (if_neg hex).trans h⟩
  | zincrby argc v =>
    simp only [rwfzPrepare] at h
    split at h
    · cases h
    · cases h
    · cases h
    · rename_i v e _ he _
      have hg : c.get r = e := by simp [RwfzCell.get, he]
      split at h
      · rename_i hex
        exact ⟨.upd v, by rw [hg]; exact (if_pos hex).trans h⟩
      · cases h
  | zrem argc =>
    simp only [rwfzPrepare] at h
    split at h
    · cases h
    · cases h
    · rename_i e he _
      have hg : c.get r = e := by simp [RwfzCell.get, he]
      split at h
      · rename_i hex
        exact ⟨.rem, by rw [hg]; exact (if_pos hex).trans h⟩
      · cases h

/-- An element of the queue as an element of the framework. -/
def rwfzView (n : ℕ) : View (rwfzEleObj n) (rwfObj (rwfzPayload n)) where
  st r c := (c.get r).toRwf
  msg := some
  init _ := rfl
  reject {r s o s₁} _ _ h := by
    obtain ⟨rfl, -⟩ := Prod.mk.inj h
    exact .inl (by rw [rwfzPrepare_get])
  hide _ _ _ hm := by cases hm
  accept {r s o s₁ m m'} _ _ h hm := by
    obtain ⟨rfl, hm'⟩ := Prod.mk.inj h
    cases hm
    obtain ⟨o', ho'⟩ := rwfzPrepare_some hm'
    exact ⟨o', by simp [rwfObj, ho', rwfzPrepare_get]⟩
  effect_hide _ _ hm := by cases hm
  effect {r s m m'} _ _ hm := by
    cases hm
    exact rwfzEffect_toRwf r s m

/-! ## The closed form -/

/-- The increment of a message. -/
def RwfMsg.inc : RwfzMsg n → ℚ
  | .upd v _ => v
  | _ => 0

/-- The payload at the end of an epoch: `innate` is the value of the add with the id, and
`acquired` is the sum of the increments. -/
theorem epochFold_rwfz (l : List (RwfzMsg n)) :
    let p := epochFold (rwfzPayload n) (0, 0) l
    (p.1 < 0 → p.2.1 = 0) ∧ (0 ≤ p.1 → ∃ t, .add p.2.1 t ∈ l ∧ p.1 = (t.id : ℕ)) ∧
      p.2.2 = (l.map RwfMsg.inc).sum := by
  induction l using List.reverseRecOn with
  | nil => simp [epochFold, PID_NEXIST]
  | append_singleton l m ih =>
    simp only [epochFold_snoc] at ih ⊢
    generalize epochFold (rwfzPayload n) (0, 0) l = p at ih
    obtain ⟨hneg, hpos, hsum⟩ := ih
    cases m with
    | add v t =>
      by_cases hp : p.1 < (t.id : ℕ)
      · simp only [epochStep, if_pos hp]
        exact ⟨fun h => by omega, fun _ => ⟨t, by simp [rwfzPayload], rfl⟩,
          by simp [rwfzPayload, hsum, RwfMsg.inc]⟩
      · simp only [epochStep, if_neg hp]
        refine ⟨hneg, fun h => ?_, by simp [hsum, RwfMsg.inc]⟩
        obtain ⟨t', ht', he⟩ := hpos h
        exact ⟨t', by simp [ht'], he⟩
    | upd v t =>
      have hp : ∀ q : ℤ, q = (if p.1 = PID_NEXIST then PID_WAIT_INNATE else p.1) →
          (q < 0 ↔ p.1 < 0) ∧ (0 ≤ q → q = p.1) := by
        rintro q rfl
        split
        · rename_i h
          simp only [h, PID_NEXIST, PID_WAIT_INNATE]; omega
        · exact ⟨Iff.rfl, fun _ => rfl⟩
      obtain ⟨hq, hq'⟩ := hp _ rfl
      refine ⟨fun h => hneg (hq.mp h), fun h => ?_,
        by simp [epochStep, rwfzPayload, hsum, RwfMsg.inc]⟩
      obtain ⟨t', ht', he⟩ := hpos (by have := hq' h; simp only [epochStep] at h; omega)
      exact ⟨t', List.mem_append_left _ ht', (hq' h).trans he⟩
    | rem t =>
      refine ⟨hneg, fun h => ?_, by simp [epochStep, hsum, RwfMsg.inc]⟩
      obtain ⟨t', ht', he⟩ := hpos h
      exact ⟨t', List.mem_append_left _ ht', he⟩

/-- The states of one element of the queue. -/
abbrev RwfzSys (n : ℕ) := Sys (Fin n) (RwfzCell n) (RwfzMsg n)

/-- The metadata `e` of an element at replica `r` as a function of the messages applied there. -/
structure RwfzClosed (s : RwfzSys n) (r : Fin n) (e : Rwfze n) : Prop where
  header : RehClosed s r e.header
  innate : ∀ i o v, WinAt s r i o v → e.innate = v
  innate_zero : (∀ i o v, ¬ AddAt s r i o v) → e.innate = 0
  acquired : e.acquired = ∑ i ∈ s.recv r with rwfTs s.msg i = rwfJoin s r,
    ((s.msg i).map RwfMsg.inc).getD 0

/-- The closed form on the framework's side. -/
theorem rwfObj_rwfzClosed {s : Sys (Fin n) (RwfEle n (ℚ × ℚ)) (RwfzMsg n)}
    (hs : (rwfObj (rwfzPayload n)).Reach anyOrder s) (r : Fin n) :
    (∀ i o v, WinAt s r i o v → (s.st r).pay.1 = v) ∧
    ((∀ i o v, ¬ AddAt s r i o v) → (s.st r).pay.1 = 0) ∧
    (s.st r).pay.2 = ∑ i ∈ s.recv r with rwfTs s.msg i = rwfJoin s r,
      ((s.msg i).map RwfMsg.inc).getD 0 := by
  have hh := rwfObj_closed hs r
  obtain ⟨l, x, hl⟩ := rwfObj_epochOf hs r
  obtain ⟨hneg, hpos, hsum⟩ := epochFold_rwfz (l.filterMap s.msg)
  have hf : epochFold (rwfzPayload n) (0, 0) (l.filterMap s.msg) =
      ((s.st r).header.pid, (s.st r).pay) := hl.fold.symm
  simp only [hf] at hneg hpos hsum
  refine ⟨fun i o v hw => ?_, fun hn => hneg ?_, ?_⟩
  · have hpid := hh.add i o v hw
    obtain ⟨t, ht, hp⟩ := hpos (by omega)
    exact hl.add_unique hs hw.1 ht (by omega)
  · by_cases hu : ∃ i u, UpdAt s r i u
    · simp [hh.wait hn hu, PID_WAIT_INNATE]
    · simp [hh.nexist hn hu, PID_NEXIST]
  · rw [hsum, Obj.sum_filterMap s.msg RwfMsg.inc hl.nodup]
    congr 1
    ext i
    simp [hl.mem]

section Element

variable {s : RwfzSys n}

/-- The closed form holds in every reachable state of one element. -/
theorem rwfzEle_closed (hs : (rwfzEleObj n).Reach anyOrder s) (r : Fin n) :
    RwfzClosed s r ((s.st r).get r) := by
  have hT := (rwfzView n).reach_any (fun _ _ _ => trivial) hs
  -- The element in the framework has the same broadcasts and receptions.
  have hsys : (rwfzView n).sys s = ⟨fun r => ((s.st r).get r).toRwf, s.log, s.sent, s.recv⟩ :=
    View.sys_total (fun _ => rfl) hs.wf
  rw [hsys] at hT
  obtain ⟨h₁, h₂, h₃⟩ := rwfObj_rwfzClosed hT r
  have hh := rwfObj_closed hT r
  exact ⟨⟨hh.current, hh.add, hh.wait, hh.nexist⟩, h₁, h₂, h₃⟩

/-- Replicas that applied the same messages have the same metadata. -/
theorem RwfzClosed.agree {r q : Fin n} {e e' : Rwfze n} (hr : RwfzClosed s r e)
    (hq : RwfzClosed s q e') (hD : s.recv r = s.recv q) :
    e.header.pid = e'.header.pid ∧ e.header.current.vector = e'.header.current.vector ∧
      e.innate = e'.innate ∧ e.acquired = e'.acquired := by
  obtain ⟨hpid, hcur⟩ := hr.header.agree hq.header hD
  have hJ : rwfJoin s r = rwfJoin s q := by simp only [rwfJoin, hD]
  obtain ⟨hA, -, hW⟩ := updAt_congr hD
  refine ⟨hpid, hcur, ?_, by rw [hr.acquired, hq.acquired, hD, hJ]⟩
  by_cases hadd : ∃ i o a, AddAt s r i o a
  · obtain ⟨i, o, a, hw⟩ := exists_winAt hadd
    rw [hr.innate i o a hw, hq.innate i o a (hW ▸ hw)]
  · simp only [not_exists] at hadd
    rw [hr.innate_zero hadd, hq.innate_zero (hA ▸ hadd)]

end Element

/-! ## The visible sorted set -/

/-- The sorted set shows the element iff it exists, with its score, and an element that does not
exist has no values. -/
structure RwfzShown (e : Rwfze n) (z : Option ℚ) : Prop where
  zset : z = if e.header.exists then some e.score else none
  zero : e.header.exists = false → e.innate = 0 ∧ e.acquired = 0

theorem RwfzShown.of_exists {e : Rwfze n} (h : e.header.exists = true) :
    RwfzShown e (some e.score) :=
  ⟨by rw [if_pos h], fun h' => by rw [h] at h'; cases h'⟩

theorem RwfzShown.removeFunc {e : Rwfze n} {z : Option ℚ} (h : RwfzShown e z) (t : Clock n) :
    RwfzShown (rwfzRemoveFunc e z t).1 (rwfzRemoveFunc e z t).2 := by
  unfold rwfzRemoveFunc
  split
  · rename_i h' hc
    have hex := removeCheck_true hc
    exact ⟨by simp [hex], fun _ => ⟨rfl, rfl⟩⟩
  · rename_i h' hc
    obtain rfl := removeCheck_false hc
    exact h

theorem RwfzShown.effect {r : Fin n} {c : RwfzCell n} (h : RwfzShown (c.get r) c.zset)
    (m : RwfzMsg n) : RwfzShown ((rwfzEffect r c m).get r) (rwfzEffect r c m).zset := by
  have hr := h.removeFunc m.t
  unfold rwfzEffect
  generalize rwfzRemoveFunc (c.get r) c.zset m.t = p at hr ⊢
  obtain ⟨e, z⟩ := p
  cases m with
  | add v t =>
    dsimp only
    split
    · rename_i h' hc
      exact .of_exists (addCheck_true hc)
    · rename_i h' hc
      obtain rfl := addCheck_false hc
      exact hr
  | upd v t =>
    dsimp only
    split
    · rename_i h' hc
      exact .of_exists (updateCheck_exists hc)
    · rename_i h' hc
      obtain rfl := updateCheck_false hc
      exact hr
  | rem t => exact hr

theorem rwfzPrepare_zset (r : Fin n) (c : RwfzCell n) (o : ZCmd) :
    (rwfzPrepare r c o).1.zset = c.zset := by
  cases o with
  | zadd argc v => simp only [rwfzPrepare]; split <;> rfl
  | zincrby argc v => simp only [rwfzPrepare]; split <;> rfl
  | zrem argc => simp only [rwfzPrepare]; split <;> rfl

theorem rwfzEle_shown {s : RwfzSys n} (hs : (rwfzEleObj n).Reach anyOrder s) (r : Fin n) :
    RwfzShown ((s.st r).get r) (s.st r).zset := by
  refine hs.st_rule (I := fun r c => RwfzShown (c.get r) c.zset)
    (fun r => ⟨rfl, fun _ => ⟨rfl, rfl⟩⟩) ?_ (fun r c m h => h.effect m) r
  intro r c o c₁ m h hp
  obtain ⟨rfl, -⟩ := Prod.mk.inj hp
  rw [rwfzPrepare_get, rwfzPrepare_zset]
  exact h

/-- Replicas that applied the same messages show the same of the element. -/
theorem rwfzEle_zset_agree {s : RwfzSys n} (hs : (rwfzEleObj n).Reach anyOrder s) {q r : Fin n}
    (hD : s.recv q = s.recv r) : (s.st q).zset = (s.st r).zset := by
  obtain ⟨hpid, -, hinn, hacq⟩ := (rwfzEle_closed hs q).agree (rwfzEle_closed hs r) hD
  have hex : ((s.st q).get q).header.exists = ((s.st r).get r).header.exists := by
    simp only [Reh.exists, hpid]
  rw [(rwfzEle_shown hs q).zset, (rwfzEle_shown hs r).zset, hex]
  simp only [Rwfze.score, hinn, hacq]

/-! ## The queue -/

/-- The part of a run of the queue that is about element `k`: the broadcasts that name it. -/
def rwfzOn (s : Sys (Fin n) (Sds → RwfzCell n) (Sds × RwfzMsg n)) (k : Sds) : RwfzSys n :=
  (keyedView (fun _ => rwfzEleObj n) k).sys s

/-- **Strong convergence**: in every run of the queue, with every order of delivery, the metadata
of every element is a function of the set of messages on it that the replica applied. -/
theorem rwfz_convergence {s : Sys (Fin n) (Sds → RwfzCell n) (Sds × RwfzMsg n)}
    (hs : (rwfzObj n).Reach anyOrder s) :
    (∀ k r, RwfzClosed (rwfzOn s k) r ((s.st r k).get r)) ∧
    ∀ k r q, (rwfzOn s k).recv r = (rwfzOn s k).recv q →
      let e := (s.st r k).get r
      let e' := (s.st q k).get q
      e.header.pid = e'.header.pid ∧ e.header.current.vector = e'.header.current.vector ∧
        e.innate = e'.innate ∧ e.acquired = e'.acquired := by
  have hclosed : ∀ k r, RwfzClosed (rwfzOn s k) r ((s.st r k).get r) := fun k r =>
    rwfzEle_closed ((keyedView _ k).reach_any (fun _ _ _ => trivial) hs) r
  exact ⟨hclosed, fun k r q hD => (hclosed k r).agree (hclosed k q) hD⟩

/-- Two concurrent adds, a remove of one of them and an increment of the other, delivered in
different orders. -/
def rwfzDemo : List (Ev (Fin 2) (Sds × ZCmd)) :=
  let a : Sds := ['a']
  [.op 0 (a, .zadd 4 (some 5)) 0, .op 1 (a, .zadd 4 (some 7)) 1, .op 0 (a, .zrem 3) 2,
    .op 1 (a, .zincrby 4 (some 2)) 3, .recv 1 2, .recv 1 0, .recv 0 3, .recv 0 1]

/-- The hypothesis holds of a run with a remove that arrives before the add it removes. -/
theorem rwfz_convergence_demo :
    let s := (rwfzObj 2).runOf rwfzDemo
    let e := (s.st 0 ['a']).get 0
    let e' := (s.st 1 ['a']).get 1
    e.header.pid = e'.header.pid ∧ e.header.current.vector = e'.header.current.vector ∧
      e.innate = e'.innate ∧ e.acquired = e'.acquired :=
  (rwfz_convergence (Obj.reach_runOf (g := fun _ _ => true) (fun _ _ _ => trivial) rwfzDemo
    (by decide))).2 ['a'] 0 1 (by decide)

/-- **The visible queue**: in every run, with every order of delivery, an element is a member of the
sorted set iff it exists, with the score `innate + acquired`, and an element that does not exist has
`innate = acquired = 0`. -/
theorem rwfz_visible {s : Sys (Fin n) (Sds → RwfzCell n) (Sds × RwfzMsg n)}
    (hs : (rwfzObj n).Reach anyOrder s) (k : Sds) (r : Fin n) :
    let e := (s.st r k).get r
    ((s.st r k).zset.isSome ↔ e.header.pid ≠ PID_NEXIST) ∧
      (e.header.pid ≠ PID_NEXIST → (s.st r k).zset = some (e.innate + e.acquired)) ∧
      (e.header.pid = PID_NEXIST → e.innate = 0 ∧ e.acquired = 0) := by
  intro e
  have h : RwfzShown e (s.st r k).zset :=
    rwfzEle_shown ((keyedView _ k).reach_any (fun _ _ _ => trivial) hs) r
  have hex : e.header.exists = true ↔ e.header.pid ≠ PID_NEXIST := by simp [Reh.exists]
  refine ⟨?_, fun hp => ?_, fun hp => h.zero ?_⟩
  · rw [h.zset, ← hex]
    cases e.header.exists <;> simp
  · rw [h.zset, if_pos (hex.mpr hp)]
    rfl
  · simpa [← Bool.not_eq_true, hex] using hp

/-- Replica 1 receives an add and increments the element; replica 0 removes it meanwhile. -/
def rwfzShownDemo : List (Ev (Fin 2) (Sds × ZCmd)) :=
  let a : Sds := ['a']
  [.op 0 (a, .zadd 4 (some 5)) 0, .recv 1 0, .op 1 (a, .zincrby 4 (some 2)) 1, .op 0 (a, .zrem 3) 2,
    .recv 0 1]

/-- The hypothesis holds of that run: replica 1 shows the element with its score, and replica 0
does not show it. -/
theorem rwfz_visible_demo :
    let s := (rwfzObj 2).runOf rwfzShownDemo
    let e := (s.st 1 ['a']).get 1
    let e' := (s.st 0 ['a']).get 0
    (e.innate = 5 ∧ e.acquired = 2 ∧ (s.st 1 ['a']).zset = some (e.innate + e.acquired)) ∧
      ((s.st 0 ['a']).zset.isSome ↔ e'.header.pid ≠ PID_NEXIST) ∧
      (s.st 0 ['a']).zset = none ∧ e'.innate = 0 ∧ e'.acquired = 0 := by
  intro s e e'
  have hs : (rwfzObj 2).Reach anyOrder s :=
    Obj.reach_runOf (g := fun _ _ => true) (fun _ _ _ => trivial) rwfzShownDemo (by decide)
  obtain ⟨-, hshown, -⟩ := rwfz_visible hs ['a'] 1
  obtain ⟨hiff, -, hgone⟩ := rwfz_visible hs ['a'] 0
  exact ⟨⟨by decide +kernel, by decide +kernel, hshown (by decide)⟩, hiff, by decide +kernel,
    hgone (by decide)⟩

end CrdtRedis
