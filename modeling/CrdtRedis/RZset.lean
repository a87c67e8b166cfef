import Mathlib.Algebra.BigOperators.Group.Finset.Basic
import Mathlib.Algebra.Order.Field.Rat
import CrdtRedis.Crdt
import CrdtRedis.RemoveWin

/-!
# The Remove-Win priority queue (`t_rzset.c`)

An element of the queue (`Rze`) has its own vector clock, the records of the Remove-Win types, whose
entries hold the value of an add and the sum of the increments that saw it (`RzAse`), and the
operations that are not ready. `RzCell` is what a replica stores for an element name once the
element was created: the element, its score in the visible sorted set, if it is a member, and
`hist`, a ghost: the operations that were applied, oldest first, which no function reads.

* `rzView`: an element delivers in causal order.
* `RzClosed`: the element is a function of the set of operations applied.
* `rz_convergence`: this holds in every run, and replicas that applied the same operations agree on
  `LOOKUP` and `SCORE`.
* `rz_visible`: the sorted set shows the element that `value` gives.
-/

namespace CrdtRedis

open Broadcast

variable {n : ℕ}

/-- `rz_ase`. -/
structure RzAse (n : ℕ) where
  t : Clock n
  x : ℚ
  inc : ℚ

/-- An add starts an entry with its value, an increment adds to `inc`. -/
def rzKind (n : ℕ) : RwKind n ℚ ℚ (RzAse n) where
  stamp := RzAse.t
  new v t := ⟨t, v, 0⟩
  upd v _ a := { a with inc := a.inc + v }
  stamp_new _ _ := rfl
  stamp_upd _ _ _ := rfl

/-- The operations of the queue (`rz_cmd`). -/
abbrev RzMsg (n : ℕ) := RwMsg n ℚ ℚ

/-- `rze`. -/
structure Rze (n : ℕ) where
  current : Clock n
  sets : RwSets n (RzAse n)
  ops : List (RzMsg n)

def rzeNew (r : Fin n) : Rze n := ⟨vcNew r, RwSets.new, []⟩

/-- `LOOKUP`. -/
def Rze.lookup (e : Rze n) : Bool := e.sets.lookup

/-- `SCORE`; `none` if `value` is NULL. -/
def Rze.score (e : Rze n) : Option ℚ :=
  e.sets.value.bind fun v => (e.sets.aset.find? (·.t = v)).map fun a => a.x + a.inc

/-- An element, its score in the sorted set and the operations applied to it. -/
structure RzCell (n : ℕ) where
  e : Rze n
  zset : Option ℚ
  hist : List (RzMsg n)

def rzCellNew (r : Fin n) : RzCell n := ⟨rzeNew r, none, []⟩

/-- `addFunc`. -/
def rzAddFunc (c : RzCell n) (v : ℚ) (t : Clock n) : RzCell n :=
  let e := { c.e with sets := c.e.sets.add (rzKind n) v t }
  { e := { e with current := vcUpdate e.current t }
    zset := if e.lookup then e.score else c.zset
    hist := c.hist ++ [.add v t] }

/-- `increaseFunc`. -/
def rzIncreaseFunc (c : RzCell n) (v : ℚ) (t : Clock n) : RzCell n :=
  let e := { c.e with sets := c.e.sets.update (rzKind n) v t }
  { e := { e with current := vcUpdate e.current t }
    zset := if e.lookup && e.sets.value.any (before · t) then e.score else c.zset
    hist := c.hist ++ [.upd v t] }

/-- `removeFunc`. -/
def rzRemoveFunc (c : RzCell n) (t : Clock n) : RzCell n :=
  let e := { c.e with sets := c.e.sets.remove (rzKind n) t }
  { e := { e with current := vcUpdate e.current t }
    zset := if !e.lookup then none else c.zset
    hist := c.hist ++ [.rem t] }

/-- The switch of `notifyLoop`, and the same calls in the effect phases. -/
def rzExec (c : RzCell n) : RzMsg n → RzCell n
  | .add v t => rzAddFunc c v t
  | .upd v t => rzIncreaseFunc c v t
  | .rem t => rzRemoveFunc c t

def rzReady (c : RzCell n) (m : RzMsg n) : Bool := vcCausallyReady c.e.current m.t

/-- `notifyLoop`, after `k` rounds. -/
def rzNotify (k : ℕ) (c : RzCell n) : RzCell n :=
  let p := drain rzReady rzExec k c c.e.ops
  { p.1 with e := { p.1.e with ops := p.2 } }

/-- The effect phases of `rzaddCommand`, `rzincrbyCommand` and `rzremCommand`. -/
def rzEffect (r : Fin n) (c : Option (RzCell n)) (m : RzMsg n) : Option (RzCell n) :=
  let c := c.getD (rzCellNew r)
  if rzReady c m then some (rzNotify c.e.ops.length (rzExec c m))
  else some { c with e := { c.e with ops := c.e.ops ++ [m] } }

/-- The prepare phases. Only the add creates the element it names. -/
def rzPrepare (r : Fin n) (c : Option (RzCell n)) :
    ZCmd → Option (RzCell n) × Except ReplyErr (RzMsg n)
  | .zadd argc v =>
    match checkArgc 4 argc, checkArg .notFloat v with
    | .error err, _ => (c, .error err)
    | _, .error err => (c, .error err)
    | _, .ok v =>
      let c := c.getD (rzCellNew r)
      (some c, if c.e.lookup then .error .eleExist else .ok (.add v (vcNow c.e.current)))
  | .zincrby argc v =>
    match checkArgc 4 argc, checkArg .notFloat v, c with
    | .error err, _, _ => (c, .error err)
    | _, .error err, _ => (c, .error err)
    | _, _, none => (c, .error .eleNexist)
    | _, .ok v, some c' =>
      (c, if c'.e.lookup then .ok (.upd v (vcNow c'.e.current)) else .error .eleNexist)
  | .zrem argc =>
    match checkArgc 3 argc, c with
    | .error err, _ => (c, .error err)
    | _, none => (c, .error .eleNexist)
    | _, some c' =>
      (c, if c'.e.lookup then .ok (.rem (vcNow c'.e.current)) else .error .eleNexist)

/-- One element of the queue as a replicated object. -/
def rzEleObj (n : ℕ) : Obj (Fin n) (Option (RzCell n)) ZCmd (RzMsg n) where
  init _ := none
  prepare r c o := ((rzPrepare r c o).1, (rzPrepare r c o).2.toOption)
  effect := rzEffect

/-- The queue: one object for each element name. -/
def rzObj (n : ℕ) : Obj (Fin n) (Sds → Option (RzCell n)) (Sds × ZCmd) (Sds × RzMsg n) :=
  Obj.keyed fun _ => rzEleObj n

/-! ## Causal delivery -/

/-- What a replica has applied to an element. -/
def RzCell.app (c : RzCell n) : Applied n (RzMsg n) := ⟨c.e.current.vector, c.hist⟩

/-- What every operation does, whatever it is. -/
structure RzStep (c c' : RzCell n) (m : RzMsg n) : Prop where
  current : c'.e.current = vcUpdate c.e.current m.t
  sets : c'.e.sets = c.e.sets.exec (rzKind n) m
  ops : c'.e.ops = c.e.ops
  hist : c'.hist = c.hist ++ [m]

theorem rzExec_step (c : RzCell n) (m : RzMsg n) : RzStep c (rzExec c m) m := by
  cases m <;> exact ⟨rfl, rfl, rfl, rfl⟩

theorem rzExec_app (c : RzCell n) (m : RzMsg n) :
    (rzExec c m).app = (rwStamp n ℚ ℚ).exec c.app m := by
  simp only [RzCell.app, Stamp.exec, (rzExec_step c m).current, (rzExec_step c m).hist,
    vcUpdate_vector]
  rfl

/-- The loop is that of causal delivery. -/
theorem rzNotify_app (k : ℕ) (c : RzCell n) :
    drain (rwStamp n ℚ ℚ).ready (rwStamp n ℚ ℚ).exec k c.app c.e.ops =
      ((rzNotify k c).app, (rzNotify k c).e.ops) :=
  (drain_map rzReady rzExec (P := fun _ => True) (Q := fun _ => True) RzCell.app
    (fun _ _ _ => rfl) (fun c m _ _ => ⟨rzExec_app c m, trivial⟩) k c c.e.ops trivial
    fun _ _ => trivial).1

/-- An invariant of one operation that the buffer does not change holds after an effect phase. -/
theorem rzEffect_rule {I : RzCell n → Prop} (hI : ∀ c m, I c → I (rzExec c m))
    (hops : ∀ c ops, I c → I { c with e := { c.e with ops := ops } }) {r : Fin n}
    {c : Option (RzCell n)} (m : RzMsg n) (h : I (c.getD (rzCellNew r))) :
    I ((rzEffect r c m).getD (rzCellNew r)) := by
  simp only [rzEffect]
  split
  · refine hops _ _ (drain_rule (I := fun c _ => I c) (fun c _ m hc _ => hI c m hc) _ _ _ ?_)
    exact hI _ m h
  · exact hops _ _ h

/-- No prepare phase changes an element. -/
theorem rzPrepare_get (r : Fin n) (c : Option (RzCell n)) (o : ZCmd) :
    (rzPrepare r c o).1.getD (rzCellNew r) = c.getD (rzCellNew r) := by
  cases o with
  | zadd argc v => simp only [rzPrepare]; split <;> rfl
  | zincrby argc v => simp only [rzPrepare]; split <;> rfl
  | zrem argc => simp only [rzPrepare]; split <;> rfl

/-- What an accepted command sends: an add of an absent element, an increment or a remove of a
present one, with the element's next timestamp. -/
inductive RzSent (e : Rze n) : ZCmd → RzMsg n → Prop
  | add {argc : ℕ} {v : ℚ} (h : e.lookup = false) :
    RzSent e (.zadd argc (some v)) (.add v (vcNow e.current))
  | upd {argc : ℕ} {v : ℚ} (h : e.lookup = true) :
    RzSent e (.zincrby argc (some v)) (.upd v (vcNow e.current))
  | rem {argc : ℕ} (h : e.lookup = true) : RzSent e (.zrem argc) (.rem (vcNow e.current))

theorem rzPrepare_sent {r : Fin n} {c : Option (RzCell n)} {o : ZCmd} {m : RzMsg n}
    (h : (rzPrepare r c o).2.toOption = some m) : RzSent (c.getD (rzCellNew r)).e o m := by
  cases o with
  | zadd argc v =>
    simp only [rzPrepare] at h
    split at h
    · cases h
    · cases h
    · rename_i w hw _
      obtain rfl := checkArg_ok hw
      split at h
      · cases h
      · rename_i hl
        cases h
        exact .add (by simpa using hl)
  | zincrby argc v =>
    simp only [rzPrepare] at h
    split at h
    · cases h
    · cases h
    · cases h
    · rename_i w c' hw _
      obtain rfl := checkArg_ok hw
      split at h
      · rename_i hl
        cases h
        exact .upd hl
      · cases h
  | zrem argc =>
    simp only [rzPrepare] at h
    split at h
    · cases h
    · cases h
    · split at h
      · rename_i hl
        cases h
        exact .rem hl
      · cases h

theorem RzSent.t {e : Rze n} {o : ZCmd} {m : RzMsg n} (h : RzSent e o m) :
    m.t = vcNow e.current := by
  cases h <;> rfl

/-- The clock of an element has the id of its replica. -/
theorem rzEffect_id {r : Fin n} {c : Option (RzCell n)} (m : RzMsg n)
    (h : (c.getD (rzCellNew r)).e.current.id = r) :
    ((rzEffect r c m).getD (rzCellNew r)).e.current.id = r :=
  rzEffect_rule (I := fun c => c.e.current.id = r)
    (fun c m hc => by rw [(rzExec_step c m).current]; exact hc) (fun _ _ hc => hc) m h

/-- An element as causal delivery. -/
def rzView (n : ℕ) : View (rzEleObj n) (causalObj (rwStamp n ℚ ℚ)) where
  st r c := ⟨(c.getD (rzCellNew r)).app, (c.getD (rzCellNew r)).e.ops⟩
  msg := some
  inv r c := (c.getD (rzCellNew r)).e.current.id = r
  init _ := rfl
  inv_init _ := rfl
  inv_prepare {r s o s₁ m} hinv _ h := by
    obtain ⟨rfl, -⟩ := Prod.mk.inj h
    exact ⟨by rw [rzPrepare_get]; exact hinv, fun _ _ => trivial⟩
  inv_effect {r s m} hinv _ := rzEffect_id m hinv
  reject {r s o s₁} _ _ h := by
    obtain ⟨rfl, -⟩ := Prod.mk.inj h
    exact .inl (by rw [rzPrepare_get])
  hide _ _ _ hm := by cases hm
  accept {r s o s₁ m m'} hinv _ h hm := by
    obtain ⟨rfl, hm'⟩ := Prod.mk.inj h
    cases hm
    have ht := (rzPrepare_sent hm').t
    refine ⟨m, ?_⟩
    rw [rzPrepare_get]
    simp [causalObj, rwStamp, Stamp.next, RzCell.app, ht, vcNow, hinv]
  effect_hide _ _ hm := by cases hm
  effect {r s m m'} _ _ hm := by
    cases hm
    have hready : (rwStamp n ℚ ℚ).ready (s.getD (rzCellNew r)).app m =
      rzReady (s.getD (rzCellNew r)) m := rfl
    simp only [causalObj, hready, rzEleObj, rzEffect]
    split
    · have hn := rzNotify_app (s.getD (rzCellNew r)).e.ops.length
        (rzExec (s.getD (rzCellNew r)) m)
      rw [(rzExec_step _ m).ops, rzExec_app] at hn
      simp [hn]
    · rfl

/-! ## The closed form -/

/-- The increment of an operation. -/
def RwMsg.inc : RzMsg n → ℚ
  | .upd v _ => v
  | _ => 0

/-- The operations that were applied. -/
def RzCell.applied (c : RzCell n) : Finset (RzMsg n) := c.hist.toFinset

open Classical in
/-- The element `e` as a function of the set `S` of operations applied to it. -/
structure RzClosed (S : Finset (RzMsg n)) (e : Rze n) : Prop where
  aset : ∀ a, a ∈ e.sets.aset ↔ ∃ v t, .add v t ∈ S ∧
    (∀ m ∈ S, m.isUpd = false → ¬ t.vector < m.t.vector) ∧
    a = ⟨t, v, ∑ m ∈ S with t.vector < m.t.vector, m.inc⟩
  rset : ∀ t, t ∈ e.sets.rset ↔ .rem t ∈ S ∧ ∀ v t', .add v t' ∈ S → ¬ t.vector < t'.vector
  current : e.current.vector = S.sup fun m => m.t.vector

/-- An entry of `aset` counts the increments above it. -/
theorem rwEntry_rz (H : List (RzMsg n)) (v : ℚ) (t : Clock n) :
    rwEntry (rzKind n) H v t = ⟨t, v, ((H.filter fun m => before t m.t).map RwMsg.inc).sum⟩ := by
  induction H using List.reverseRecOn with
  | nil => rfl
  | append_singleton H m ih =>
    cases m with
    | upd u t' =>
      rw [rwEntry_snoc_upd, ih]
      by_cases hb : before t t'
      · simp [hb, rzKind, RwMsg.inc]
      · simp [hb]
    | add u t' =>
      rw [rwEntry_snoc_of_ne rfl, ih]
      by_cases hb : before t t' <;> simp [hb, RwMsg.inc]
    | rem t' =>
      rw [rwEntry_snoc_of_ne rfl, ih]
      by_cases hb : before t t' <;> simp [hb, RwMsg.inc]

open Classical in
theorem CausalHist.sum_inc {H : List (RzMsg n)} (h : CausalHist H) (hnd : H.Nodup) {v : ℚ}
    {t : Clock n} (ha : .add v t ∈ H) :
    ((H.filter fun m => before t m.t).map RwMsg.inc).sum =
      ∑ m ∈ H.toFinset with t.vector < m.t.vector, m.inc := by
  rw [← List.sum_toFinset RwMsg.inc (hnd.filter _)]
  congr 1
  ext m
  simp only [List.toFinset_filter, Finset.mem_filter, List.mem_toFinset]
  exact and_congr_right fun hm => h.before_iff (.add v t) m ha hm

/-- The first match in two lists with the same elements, if there is only one. -/
theorem find?_congr_mem {α : Type} {l l' : List α} {p : α → Bool} (h : ∀ a, a ∈ l ↔ a ∈ l')
    (hu : ∀ a ∈ l, ∀ b ∈ l, p a = true → p b = true → a = b) : l.find? p = l'.find? p := by
  cases hf : l.find? p with
  | none =>
    refine (List.find?_eq_none.mpr fun a ha => ?_).symm
    exact List.find?_eq_none.mp hf a ((h a).mpr ha)
  | some a =>
    have ha := List.mem_of_find?_eq_some hf
    cases hf' : l'.find? p with
    | none => exact absurd (List.find?_some hf) (List.find?_eq_none.mp hf' a ((h a).mp ha))
    | some b =>
      rw [hu a ha b ((h b).mpr (List.mem_of_find?_eq_some hf')) (List.find?_some hf)
        (List.find?_some hf')]

/-- What one operation keeps: the records are those of the operations applied, and the clock is
their join. -/
structure RzFold (c : RzCell n) : Prop where
  sets : c.e.sets = rwFold (rzKind n) c.hist
  current : c.e.current.vector = c.applied.sup fun m => m.t.vector

theorem RzFold.exec {c : RzCell n} (h : RzFold c) (m : RzMsg n) : RzFold (rzExec c m) where
  sets := by
    rw [(rzExec_step c m).sets, (rzExec_step c m).hist, rwFold_snoc, h.sets]
  current := by
    have : (rzExec c m).applied = insert m c.applied := by
      ext x
      simp [RzCell.applied, (rzExec_step c m).hist]
    rw [this, Finset.sup_insert, (rzExec_step c m).current, vcUpdate_vector, h.current, sup_comm]

section Element

variable {s : Sys (Fin n) (Option (RzCell n)) (RzMsg n)}

/-- The cell of the element at replica `r`. -/
def rzCellAt (s : Sys (Fin n) (Option (RzCell n)) (RzMsg n)) (r : Fin n) : RzCell n :=
  (s.st r).getD (rzCellNew r)

theorem rzEle_fold (hs : (rzEleObj n).Reach anyOrder s) (r : Fin n) : RzFold (rzCellAt s r) := by
  refine hs.st_rule (I := fun r c => RzFold (c.getD (rzCellNew r))) (fun r => ⟨rfl, rfl⟩) ?_ ?_ r
  · intro r c o c₁ m h hp
    obtain ⟨rfl, -⟩ := Prod.mk.inj hp
    rw [rzPrepare_get]; exact h
  · intro r c m h
    exact rzEffect_rule (fun c m h => h.exec m) (fun c ops h => ⟨h.sets, h.current⟩) m h

/-- An element delivers in causal order. -/
theorem rzEle_causal (hs : (rzEleObj n).Reach anyOrder s) :
    CausalInv (rwStamp n ℚ ℚ)
      ⟨fun r => ⟨(rzCellAt s r).app, (rzCellAt s r).e.ops⟩, s.log, s.sent, s.recv⟩ :=
  (View.causal_inv (v := rzView n) (fun _ => rfl) (fun _ _ _ _ _ => trivial) hs).1

/-- The history of an element is in causal order. -/
theorem rzEle_hist (hs : (rzEleObj n).Reach anyOrder s) (r : Fin n) :
    CausalHist (rzCellAt s r).hist ∧ (rzCellAt s r).hist.Nodup ∧
      ∀ m ∈ (rzCellAt s r).hist, received s r m := by
  have h := rzEle_causal hs
  have hrecv : ∀ m ∈ (rzCellAt s r).hist, received s r m := fun m hm =>
    ((h.loc r).mem m).mp (List.mem_append_left _ hm)
  refine ⟨⟨(h.loc r).order, fun m hm m' hm' hle => ?_⟩, (List.nodup_append.mp (h.loc r).nodup).1,
    hrecv⟩
  obtain ⟨i, -, o, hi⟩ := hrecv m hm
  obtain ⟨j, -, o', hj⟩ := hrecv m' hm'
  exact h.le_of_count ⟨i, o, hi⟩ ⟨j, o', hj⟩ hle

/-- The records of the element, over its history. -/
theorem rzEle_rwClosed (hs : (rzEleObj n).Reach anyOrder s) (r : Fin n) :
    RwClosed (rzKind n) (rzCellAt s r).hist (rzCellAt s r).e.sets := by
  rw [(rzEle_fold hs r).sets]
  exact rwFold_closed (rzEle_hist hs r).1

theorem rzEle_closed (hs : (rzEleObj n).Reach anyOrder s) (r : Fin n) :
    RzClosed (rzCellAt s r).applied (rzCellAt s r).e := by
  obtain ⟨hH, hnd, -⟩ := rzEle_hist hs r
  have hc := rzEle_rwClosed hs r
  refine ⟨fun a => ?_, fun t => ?_, (rzEle_fold hs r).current⟩
  · simp only [hc.aset, RzCell.applied, List.mem_toFinset, Survives]
    refine exists_congr fun v => exists_congr fun t => and_congr_right fun ha =>
      and_congr_right fun _ => ?_
    rw [rwEntry_rz, hH.sum_inc hnd ha]
  · simp only [hc.rset, RzCell.applied, List.mem_toFinset]

/-- Entries of `aset` with one timestamp are one. -/
theorem rzEle_unique (hs : (rzEleObj n).Reach anyOrder s) {r : Fin n} {a b : RzAse n}
    (ha : a ∈ (rzCellAt s r).e.sets.aset) (hb : b ∈ (rzCellAt s r).e.sets.aset) (ht : a.t = b.t) :
    a = b := by
  obtain ⟨v, t, hv, hsv, rfl⟩ := ((rzEle_rwClosed hs r).aset a).mp ha
  obtain ⟨v', t', hv', hsv', rfl⟩ := ((rzEle_rwClosed hs r).aset b).mp hb
  have htt : t = t' := by simpa [rwEntry_rz] using ht
  obtain ⟨rfl, rfl⟩ := (rzEle_hist hs r).1.survives_eq hv hv' hsv hsv' (by rw [htt])
  rfl

/-- Replicas that applied the same operations agree on `LOOKUP` and `SCORE`. -/
theorem rzEle_agree (hs : (rzEleObj n).Reach anyOrder s) {r q : Fin n}
    (hS : (rzCellAt s r).applied = (rzCellAt s q).applied) :
    (rzCellAt s r).e.lookup = (rzCellAt s q).e.lookup ∧
      (rzCellAt s r).e.score = (rzCellAt s q).e.score := by
  have hr := rzEle_rwClosed hs r
  have hq := rzEle_rwClosed hs q
  have hmem : ∀ m, m ∈ (rzCellAt s r).hist ↔ m ∈ (rzCellAt s q).hist := fun m => by
    simpa [RzCell.applied] using Finset.ext_iff.mp hS m
  have haset : ∀ a, a ∈ (rzCellAt s r).e.sets.aset ↔ a ∈ (rzCellAt s q).e.sets.aset := fun a => by
    rw [(rzEle_closed hs r).aset, (rzEle_closed hs q).aset, hS]
  refine ⟨hr.lookup_congr hq hmem, ?_⟩
  simp only [Rze.score, hr.value_congr (rzEle_hist hs r).1 hq hmem]
  cases (rzCellAt s q).e.sets.value with
  | none => rfl
  | some c =>
    have hf : (rzCellAt s r).e.sets.aset.find? (·.t = c) =
        (rzCellAt s q).e.sets.aset.find? (·.t = c) :=
      find?_congr_mem haset fun a ha b hb hac hbc =>
        rzEle_unique hs ha hb ((of_decide_eq_true hac).trans (of_decide_eq_true hbc).symm)
    simp [hf]

end Element

/-! ## The visible sorted set -/

/-- An increment changes the entries below it. -/
theorem find?_update (s : RwSets n (RzAse n)) (v : ℚ) (t c : Clock n) :
    (s.update (rzKind n) v t).aset.find? (·.t = c) =
      (s.aset.find? (·.t = c)).map fun a =>
        if before c t then { a with inc := a.inc + v } else a :=
  s.find?_update (K := rzKind n) v t c

/-- `value` is an entry with the greatest origin id, and the sorted set shows the element iff
`LOOKUP`, with its score. -/
structure RzShown (c : RzCell n) : Prop where
  value : Greatest (rzKind n) c.e.sets.aset c.e.sets.value
  zset : c.zset = if c.e.lookup then c.e.score else none

theorem RzShown.exec {c : RzCell n} (h : RzShown c) (m : RzMsg n) : RzShown (rzExec c m) := by
  refine ⟨by rw [(rzExec_step c m).sets]; exact RwSets.value_exec h.value m, ?_⟩
  have hz : c.zset = if c.e.sets.lookup then c.e.score else none := h.zset
  cases m with
  | add v t =>
    show (if (c.e.sets.add (rzKind n) v t).lookup then _ else c.zset) = _
    -- Where the element is not shown after the add, it was not before.
    cases hl : (c.e.sets.add (rzKind n) v t).lookup with
    | true => simp [rzExec, rzAddFunc, Rze.lookup, Rze.score, hl]
    | false =>
      have hl' : c.e.sets.lookup = false := by
        by_contra hc
        rw [c.e.sets.lookup_add v t (by simpa using hc)] at hl
        cases hl
      simp [rzExec, rzAddFunc, Rze.lookup, hl, hz, hl']
  | upd v t =>
    have hl : (c.e.sets.update (rzKind n) v t).lookup = c.e.sets.lookup :=
      c.e.sets.lookup_update v t
    simp only [rzExec, rzIncreaseFunc, Rze.lookup, hl]
    split
    · rename_i hb
      simp only [Bool.and_eq_true] at hb
      rw [if_pos hb.1]
      rfl
    · rename_i hb
      rw [hz]
      cases hc : c.e.sets.lookup with
      | false => rfl
      | true =>
        -- The entry that is shown is not below the increment.
        have hb' : c.e.sets.value.any (before · t) = false := by
          simpa [hc, RwSets.update] using hb
        simp only [if_true, Rze.score]
        cases hv : c.e.sets.value with
        | none => simp [RwSets.update, hv]
        | some w =>
          have hw : before w t = false := by simpa [hv] using hb'
          have hf := find?_update c.e.sets v t w
          simp only [hw, Bool.false_eq_true, if_false, Option.map_id'] at hf
          have hv' : (c.e.sets.update (rzKind n) v t).value = some w := hv
          rw [hv', Option.bind_some, Option.bind_some, hf]
  | rem t =>
    have hl : (c.e.sets.remove (rzKind n) t).lookup = false := c.e.sets.lookup_remove t
    simp [rzExec, rzRemoveFunc, Rze.lookup, hl]

theorem rzEle_shown {s : Sys (Fin n) (Option (RzCell n)) (RzMsg n)}
    (hs : (rzEleObj n).Reach anyOrder s) (r : Fin n) : RzShown (rzCellAt s r) := by
  refine hs.st_rule (I := fun r c => RzShown (c.getD (rzCellNew r)))
    (fun r => ⟨greatest_elect [], rfl⟩) ?_ ?_ r
  · intro r c o c₁ m h hp
    obtain ⟨rfl, -⟩ := Prod.mk.inj hp
    rw [rzPrepare_get]; exact h
  · intro r c m h
    exact rzEffect_rule (fun c m h => h.exec m) (fun c ops h => ⟨h.value, h.zset⟩) m h

/-- A shown element has a `value`. -/
theorem RzShown.score {c : RzCell n} (h : RzShown c) (hl : c.e.sets.aset ≠ []) :
    ∃ a ∈ c.e.sets.aset, c.e.sets.value = some a.t ∧ c.e.score = some (a.x + a.inc) := by
  obtain ⟨v, hv⟩ := Option.ne_none_iff_exists'.mp (mt h.value.none.mp hl)
  obtain ⟨b, hb, hbv⟩ : ∃ b ∈ c.e.sets.aset, b.t = v := h.value.mem v hv
  cases hf : c.e.sets.aset.find? (·.t = v) with
  | none => exact absurd hbv (by simpa using List.find?_eq_none.mp hf b hb)
  | some a =>
    have hav : a.t = v := by simpa using List.find?_some hf
    exact ⟨a, List.mem_of_find?_eq_some hf, by rw [hv, hav], by simp [Rze.score, hv, hf]⟩

/-! ## The queue -/

/-- The part of a run of the queue that is about element `k`: the broadcasts that name it. -/
def rzOn (s : Sys (Fin n) (Sds → Option (RzCell n)) (Sds × RzMsg n)) (k : Sds) :
    Sys (Fin n) (Option (RzCell n)) (RzMsg n) :=
  (keyedView (fun _ => rzEleObj n) k).sys s

/-- **Convergence of the Remove-Win queue**: in every run, with every order of reception, every
element is a function of the set of operations that the replica applied to it, all of which it
received; replicas that applied the same operations agree on `LOOKUP` and `SCORE`. -/
theorem rz_convergence {s : Sys (Fin n) (Sds → Option (RzCell n)) (Sds × RzMsg n)}
    (hs : (rzObj n).Reach anyOrder s) :
    (∀ k r, let c := rzCellAt (rzOn s k) r
      RzClosed c.applied c.e ∧ ∀ m ∈ c.applied, received (rzOn s k) r m) ∧
    ∀ k r q, let c := rzCellAt (rzOn s k) r
      let c' := rzCellAt (rzOn s k) q
      c.applied = c'.applied → c.e.lookup = c'.e.lookup ∧ c.e.score = c'.e.score := by
  have hk : ∀ k, (rzEleObj n).Reach anyOrder (rzOn s k) := fun k =>
    (keyedView _ k).reach_any (fun _ _ _ => trivial) hs
  refine ⟨fun k r => ⟨rzEle_closed (hk k) r, fun m hm => ?_⟩, fun k r q hS =>
    rzEle_agree (hk k) hS⟩
  exact (rzEle_hist (hk k) r).2.2 m (List.mem_toFinset.mp hm)

/-- Replica 1 receives the increment and the remove before the add that they follow, and adds the
element again when all three are applied. -/
def rzDemo : List (Ev (Fin 2) (Sds × ZCmd)) :=
  let a : Sds := ['a']
  [.op 0 (a, .zadd 4 (some 5)) 0, .op 0 (a, .zincrby 4 (some 2)) 1, .op 0 (a, .zrem 3) 2,
    .recv 1 2, .recv 1 1, .recv 1 0, .op 1 (a, .zadd 4 (some 7)) 3, .recv 0 3]

/-- The hypothesis holds of a run in which operations are buffered. -/
theorem rz_convergence_demo :
    let s := (rzObj 2).runOf rzDemo
    let c := rzCellAt (rzOn s ['a']) 0
    let c' := rzCellAt (rzOn s ['a']) 1
    c.e.lookup = c'.e.lookup ∧ c.e.score = c'.e.score :=
  (rz_convergence (Obj.reach_runOf (g := fun _ _ => true) (fun _ _ _ => trivial) rzDemo
    (by decide))).2 ['a'] 0 1 (by decide +kernel)

/-- **Representation of the Remove-Win queue**: in every run, `value` is NULL iff `aset` is empty,
and otherwise the entry of `aset` with the greatest origin id; an element is a member of the sorted
set iff it has adds and no removes, with the score of `value`. -/
theorem rz_visible {s : Sys (Fin n) (Sds → Option (RzCell n)) (Sds × RzMsg n)}
    (hs : (rzObj n).Reach anyOrder s) (k : Sds) (r : Fin n) :
    let c := rzCellAt (rzOn s k) r
    (c.e.sets.value = none ↔ c.e.sets.aset = []) ∧
      (∀ v, c.e.sets.value = some v → ∃ a ∈ c.e.sets.aset, a.t = v ∧
        ∀ b ∈ c.e.sets.aset, b ≠ a → b.t.id < v.id) ∧
      (c.zset.isSome ↔ c.e.sets.aset ≠ [] ∧ c.e.sets.rset = []) ∧
      (c.zset.isSome → ∃ a ∈ c.e.sets.aset, c.e.sets.value = some a.t ∧
        c.zset = some (a.x + a.inc)) := by
  have hk : (rzEleObj n).Reach anyOrder (rzOn s k) :=
    (keyedView _ k).reach_any (fun _ _ _ => trivial) hs
  intro c
  have h : RzShown c := rzEle_shown hk r
  have hlook : c.e.lookup = true ↔ c.e.sets.aset ≠ [] ∧ c.e.sets.rset = [] := by
    simp [Rze.lookup, RwSets.lookup]
  have hsome : c.zset.isSome ↔ c.e.lookup = true := by
    rw [h.zset]
    split
    · rename_i hl
      obtain ⟨a, -, -, hsc⟩ := h.score (hlook.mp hl).1
      simp [hl, hsc]
    · rename_i hl
      simp [hl]
  refine ⟨h.value.none, fun v hv => ?_, hsome.trans hlook, fun hz => ?_⟩
  · obtain ⟨a, ha, hav⟩ : ∃ a ∈ c.e.sets.aset, a.t = v := h.value.mem v hv
    refine ⟨a, ha, hav, fun b hb hne => lt_of_le_of_ne (h.value.le v hv b hb) fun hid => hne ?_⟩
    have hcl := rzEle_rwClosed hk r
    obtain ⟨x, t, hx, hsv, rfl⟩ := (hcl.aset a).mp ha
    obtain ⟨x', t', hx', hsv', rfl⟩ := (hcl.aset b).mp hb
    have hid' : t'.id = t.id := by
      rw [← hav] at hid
      simpa [rwEntry_rz] using hid
    obtain ⟨rfl, rfl⟩ := (rzEle_hist hk r).1.survives_eq hx' hx hsv' hsv hid'
    rfl
  · have hl := hsome.mp hz
    obtain ⟨a, ha, hv, hsc⟩ := h.score (hlook.mp hl).1
    exact ⟨a, ha, hv, by rw [h.zset, if_pos hl, hsc]⟩

/-- In the same run, replica 0 shows the element that replica 1 added again. -/
theorem rz_visible_demo :
    let c := rzCellAt (rzOn ((rzObj 2).runOf rzDemo) ['a']) 0
    ∃ a ∈ c.e.sets.aset, c.e.sets.value = some a.t ∧ c.zset = some (a.x + a.inc) :=
  (rz_visible (Obj.reach_runOf (g := fun _ _ => true) (fun _ _ _ => trivial) rzDemo
    (by decide)) ['a'] 0).2.2.2 (by decide +kernel)

end CrdtRedis
