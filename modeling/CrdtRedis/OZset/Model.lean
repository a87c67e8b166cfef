import Mathlib.Algebra.Order.Field.Rat
import CrdtRedis.Broadcast.View
import CrdtRedis.Crdt
import CrdtRedis.LamportClock

/-!
# The Add-Win priority queue (`t_ozset.c`)

An add gives the element a new tag; an increment and a remove name the tags that their origin knows.
An element (`Oze`) has an entry for each live tag (`aset`, `OzAse`), the removed tags (`rset`), and
two pointers into `aset`: `innate` gives the initial value of the score, `acquired` the increment.
A pointer is modelled by the tag of its entry, which no two entries share. `add_ase` does not set
`x`: a new entry holds the value that its memory has (`junk`).

* `ozTag_apply`: an operation acts on each tag by itself, as `tagStep` says.
* `OzWf`: no two entries share a tag, and `innate` and `acquired` point to entries.
-/

namespace CrdtRedis

open Broadcast

variable {n : ℕ}

/-- `oz_ase`. -/
structure OzAse where
  t : Lc
  x : ℚ
  inc : ℚ
  count : ℚ

/-- `oze`, without `current`. -/
structure OzTags where
  innate : Option Lc
  acquired : Option Lc
  aset : List OzAse
  rset : List Lc

/-- `oze`. -/
structure Oze extends OzTags where
  current : ℤ

def ozTagsNew : OzTags := ⟨none, none, [], []⟩

def ozeNew : Oze := ⟨ozTagsNew, 0⟩

/-- The test of `asetGet`. -/
def tagIs (t : Lc) (a : OzAse) : Bool := lcCmpAsTag t a.t == 0

/-- In a list of entries, the first with tag `t` is changed by `f`; if there is none, `new` is
added at the end and changed. -/
def upsert (t : Lc) (new : OzAse) (f : OzAse → OzAse) : List OzAse → List OzAse
  | [] => [f new]
  | a :: l => if tagIs t a then f a :: l else a :: upsert t new f l

/-- `add_ase`: the new entry. -/
def addAse (junk : Lc → ℚ) (t : Lc) : OzAse := ⟨t, junk t, 0, 0⟩

/-- The test of `update_acquired_value` and `resort`: `a` replaces `q`. -/
def acquires (q a : OzAse) : Bool :=
  decide (q.count < a.count) || (q.count == a.count && decide (lcCmpAsTag q.t a.t < 0))

namespace OzTags

/-- `asetGet`. -/
def asetGet (e : OzTags) (t : Lc) : Option OzAse := e.aset.find? (tagIs t)

/-- `rsetGet`. -/
def rsetGet (e : OzTags) (t : Lc) : Option Lc := e.rset.find? fun a => lcCmpAsTag t a == 0

/-- `LOOKUP`. -/
def lookup (e : OzTags) : Bool := !e.aset.isEmpty

/-- The entry that a pointer points to. -/
def deref (e : OzTags) (p : Option Lc) : Option OzAse := p.bind e.asetGet

/-- `SCORE`. -/
def score (e : OzTags) : ℚ :=
  ((e.deref e.innate).map OzAse.x).getD 0 + ((e.deref e.acquired).map OzAse.inc).getD 0

/-- `update_innate_value`. -/
def updateInnateValue (junk : Lc → ℚ) (e : OzTags) (t : Lc) (v : ℚ) : OzTags × Bool :=
  if (e.rsetGet t).isSome then (e, false)
  else
    let e := { e with aset := upsert t (addAse junk t) (fun a => { a with x := v }) e.aset }
    if e.innate.all fun i => lcCmpAsTag i t < 0 then ({ e with innate := some t }, true)
    else (e, false)

/-- What an increment does to an entry. -/
def increase (v : ℚ) (a : OzAse) : OzAse :=
  { a with inc := a.inc + v, count := a.count + if 0 < v then v else -v }

/-- `update_acquired_value`. -/
def updateAcquiredValue (junk : Lc → ℚ) (e : OzTags) (t : Lc) (v : ℚ) : OzTags × Bool :=
  if (e.rsetGet t).isSome then (e, false)
  else
    let e := { e with aset := upsert t (addAse junk t) (increase v) e.aset }
    if e.acquired = some t then (e, true)
    else if (e.deref e.acquired).all fun q => (e.asetGet t).any (acquires q) then
      ({ e with acquired := some t }, true)
    else (e, false)

/-- `remove_tag`. -/
def removeTag (e : OzTags) (t : Lc) : OzTags :=
  if (e.rsetGet t).isSome then e
  else
    let e := { e with rset := e.rset ++ [t] }
    match e.asetGet t with
    | none => e
    | some _ =>
      { e with
        aset := e.aset.eraseP (tagIs t)
        innate := if e.innate = some t then none else e.innate
        acquired := if e.acquired = some t then none else e.acquired }

/-- `resort`. -/
def resort (e : OzTags) : OzTags :=
  if e.innate.isSome && e.acquired.isSome then e
  else
    { e with
      innate := e.aset.foldl
        (fun i a => if i.all fun t => lcCmpAsTag t a.t < 0 then some a.t else i) e.innate
      acquired := (e.aset.foldl
        (fun q a => if q.all fun q => acquires q a then some a else q)
        (e.deref e.acquired)).map OzAse.t }

end OzTags

/-- The messages: the value and the tag of an add, the increment and the tags that it names, the
tags that a remove names. -/
inductive OzMsg where
  | add (v : ℚ) (t : Lc)
  | inc (v : ℚ) (ts : List Lc)
  | rem (ts : List Lc)

/-- The loop of `ozincrbyCommand` over the tags, with `changed`. -/
def ozIncrease (junk : Lc → ℚ) (v : ℚ) (e : OzTags) (ts : List Lc) : OzTags × ℕ :=
  ts.foldl (fun p t =>
    let (e, b) := p.1.updateAcquiredValue junk t v
    (e, p.2 + b.toNat)) (e, 0)

/-- The effect phases: the element and its score in the sorted set. -/
def ozApply (junk : Lc → ℚ) (e : OzTags) (z : Option ℚ) : OzMsg → OzTags × Option ℚ
  | .add v t =>
    let (e, changed) := e.updateInnateValue junk t v
    (e, if changed then some e.score else z)
  | .inc v ts =>
    let (e, changed) := ozIncrease junk v e ts
    (e, if changed ≠ 0 then some e.score else z)
  | .rem ts =>
    let e := ts.foldl OzTags.removeTag e
    if e.innate.isNone || e.acquired.isNone then
      let e := e.resort
      (e, if e.lookup then some e.score else none)
    else (e, z)

/-- What a replica stores for an element name: the entry of the table `_ozets_` and the score in
the sorted set. -/
structure OzCell where
  ele : Option Oze
  zset : Option ℚ

/-- `GET_OZE` with `create`. -/
def OzCell.get (c : OzCell) : Oze := c.ele.getD ozeNew

/-- The effect phases of `ozaddCommand`, `ozincrbyCommand` and `ozremCommand`. -/
def ozEffect (junk : Lc → ℚ) (c : OzCell) (m : OzMsg) : OzCell :=
  let p := ozApply junk c.get.toOzTags c.zset m
  ⟨some { c.get with toOzTags := p.1 }, p.2⟩

/-- The prepare phases. Only the add creates the element it names, and takes a new tag. -/
def ozPrepare (r : Fin n) (c : OzCell) : ZCmd → OzCell × Except ReplyErr OzMsg
  | .zadd argc v =>
    match checkArgc 4 argc, checkArg .notFloat v with
    | .error err, _ => (c, .error err)
    | _, .error err => (c, .error err)
    | _, .ok v =>
      let e := c.get
      if e.lookup then ({ c with ele := some e }, .error .eleExist)
      else ({ c with ele := some { e with current := e.current + 1 } },
        .ok (.add v ⟨e.current, (r : ℕ)⟩))
  | .zincrby argc v =>
    match checkArgc 4 argc, checkArg .notFloat v, c.ele with
    | .error err, _, _ => (c, .error err)
    | _, .error err, _ => (c, .error err)
    | _, _, none => (c, .error .eleNexist)
    | _, .ok v, some e =>
      (c, if e.lookup then .ok (.inc v (e.aset.map OzAse.t)) else .error .eleNexist)
  | .zrem argc =>
    match checkArgc 3 argc, c.ele with
    | .error err, _ => (c, .error err)
    | _, none => (c, .error .eleNexist)
    | _, some e =>
      (c, if e.lookup then .ok (.rem (e.aset.map OzAse.t)) else .error .eleNexist)

/-- One element of the queue as a replicated object. The memory of a new entry at replica `r` holds
`junk r t`. -/
def ozEleObj (n : ℕ) (junk : Fin n → Lc → ℚ) : Obj (Fin n) OzCell ZCmd OzMsg where
  init _ := ⟨none, none⟩
  prepare r c o := ((ozPrepare r c o).1, (ozPrepare r c o).2.toOption)
  effect r := ozEffect (junk r)

/-- The queue: one object for each element name. -/
def ozObj (n : ℕ) (junk : Sds → Fin n → Lc → ℚ) :
    Obj (Fin n) (Sds → OzCell) (Sds × ZCmd) (Sds × OzMsg) :=
  Obj.keyed fun k => ozEleObj n (junk k)

/-! ## Lists of entries -/

section Entries

variable {t t' : Lc} {new a : OzAse} {f : OzAse → OzAse} {l : List OzAse}

theorem tagIs_iff : tagIs t a = true ↔ a.t = t := by
  rw [tagIs, beq_iff_eq, lcCmpAsTag_eq_zero]
  exact eq_comm

/-- The entry with tag `t` after an `upsert`. -/
theorem find?_upsert_self (hf : ∀ a, (f a).t = a.t) (hnew : new.t = t) :
    (upsert t new f l).find? (tagIs t) = some (f ((l.find? (tagIs t)).getD new)) := by
  induction l with
  | nil => simp [upsert, tagIs_iff.mpr ((hf new).trans hnew)]
  | cons a l ih =>
    by_cases ha : tagIs t a
    · have : tagIs t (f a) := tagIs_iff.mpr ((hf a).trans (tagIs_iff.mp ha))
      simp [upsert, ha, this]
    · simp [upsert, ha, ih]

theorem find?_upsert_ne (hf : ∀ a, (f a).t = a.t) (hnew : new.t = t) (h : t' ≠ t) :
    (upsert t new f l).find? (tagIs t') = l.find? (tagIs t') := by
  have hne : ∀ a : OzAse, a.t = t → tagIs t' (f a) = false := fun a ha => by
    rw [← Bool.not_eq_true, tagIs_iff, hf, ha]; exact h.symm
  have hne' : ∀ a : OzAse, a.t = t → tagIs t' a = false := fun a ha => by
    rw [← Bool.not_eq_true, tagIs_iff, ha]; exact h.symm
  induction l with
  | nil => simp [upsert, hne new hnew]
  | cons a l ih =>
    by_cases ha : tagIs t a
    · have ht := tagIs_iff.mp ha
      simp [upsert, ha, hne a ht, hne' a ht]
    · simp [upsert, ha, List.find?_cons, ih]

/-- An `upsert` adds at most the tag `t`. -/
theorem map_upsert (hf : ∀ a, (f a).t = a.t) (hnew : new.t = t) :
    (upsert t new f l).map OzAse.t =
      if t ∈ l.map OzAse.t then l.map OzAse.t else l.map OzAse.t ++ [t] := by
  induction l with
  | nil => simp [upsert, hf, hnew]
  | cons a l ih =>
    by_cases ha : a.t = t
    · simp [upsert, tagIs_iff.mpr ha, hf, ha]
    · have : ¬ tagIs t a = true := fun h => ha (tagIs_iff.mp h)
      simp only [upsert, if_neg this, List.map_cons, ih, List.mem_cons, Ne.symm ha, false_or]
      split <;> rfl

theorem nodup_upsert (hf : ∀ a, (f a).t = a.t) (hnew : new.t = t) (h : (l.map OzAse.t).Nodup) :
    ((upsert t new f l).map OzAse.t).Nodup := by
  rw [map_upsert hf hnew]
  split
  · exact h
  · rename_i ht
    exact h.append (List.nodup_singleton t) (by simpa using ht)

theorem find?_tagIs (h : l.find? (tagIs t) = some a) : a.t = t ∧ a ∈ l :=
  ⟨tagIs_iff.mp (List.find?_some h), List.mem_of_find?_eq_some h⟩

theorem find?_tagIs_none : l.find? (tagIs t) = none ↔ t ∉ l.map OzAse.t := by
  simp [List.find?_eq_none, tagIs_iff]

theorem find?_eraseP_ne (h : t' ≠ t) :
    (l.eraseP (tagIs t)).find? (tagIs t') = l.find? (tagIs t') := by
  induction l with
  | nil => rfl
  | cons a l ih =>
    by_cases ha : tagIs t a
    · have : tagIs t' a = false := by
        rw [← Bool.not_eq_true, tagIs_iff, tagIs_iff.mp ha]; exact h.symm
      simp [ha, this]
    · rw [List.eraseP_cons_of_neg ha, List.find?_cons, List.find?_cons, ih]

theorem map_eraseP : (l.eraseP (tagIs t)).map OzAse.t = (l.map OzAse.t).erase t := by
  induction l with
  | nil => rfl
  | cons a l ih =>
    by_cases ha : a.t = t
    · simp [tagIs_iff.mpr ha, ha]
    · rw [List.eraseP_cons_of_neg (fun h => ha (tagIs_iff.mp h)), List.map_cons, List.map_cons,
        List.erase_cons_tail (by simpa using ha), ih]

/-- Where no two entries share a tag, the erased tag is gone. -/
theorem find?_eraseP_self (h : (l.map OzAse.t).Nodup) :
    (l.eraseP (tagIs t)).find? (tagIs t) = none := by
  rw [find?_tagIs_none, map_eraseP]
  exact h.not_mem_erase

/-- An entry is the first of its tag. -/
theorem find?_of_mem (h : (l.map OzAse.t).Nodup) (ha : a ∈ l) : l.find? (tagIs a.t) = some a := by
  induction l with
  | nil => cases ha
  | cons b l ih =>
    rw [List.map_cons, List.nodup_cons] at h
    rcases List.mem_cons.mp ha with rfl | ha
    · simp [tagIs_iff.mpr rfl]
    · have hb : ¬ tagIs a.t b = true := fun hb =>
        h.1 (by rw [tagIs_iff.mp hb]; exact List.mem_map_of_mem ha)
      rw [List.find?_cons_of_neg hb]
      exact ih h.2 ha

end Entries

/-! ## What an operation does to the tags -/

/-- No two entries share a tag, a removed tag has no entry, and the pointers point to entries. -/
structure OzWf (e : OzTags) : Prop where
  nodup : (e.aset.map OzAse.t).Nodup
  live : ∀ t ∈ e.aset.map OzAse.t, t ∉ e.rset
  innate : ∀ t ∈ e.innate, t ∈ e.aset.map OzAse.t
  acquired : ∀ t ∈ e.acquired, t ∈ e.aset.map OzAse.t

/-- What an element knows of tag `t`: whether it was removed, and its entry. -/
def ozTag (e : OzTags) (t : Lc) : Bool × Option OzAse := (decide (t ∈ e.rset), e.asetGet t)

/-- A tag that is updated: its entry, which is new if there was none, changes by `f`; nothing
happens to a removed tag. -/
def tagUpsert (junk : Lc → ℚ) (t : Lc) (f : OzAse → OzAse) (p : Bool × Option OzAse) :
    Bool × Option OzAse :=
  if p.1 then p else (false, some (f (p.2.getD (addAse junk t))))

/-- What an operation does to tag `t`. -/
def tagStep (junk : Lc → ℚ) (t : Lc) (p : Bool × Option OzAse) : OzMsg → Bool × Option OzAse
  | .add v t' => if t = t' then tagUpsert junk t (fun a => { a with x := v }) p else p
  | .inc v ts => if t ∈ ts then tagUpsert junk t (OzTags.increase v) p else p
  | .rem ts => if t ∈ ts then (true, none) else p

section Tags

variable {junk : Lc → ℚ} {e : OzTags} {t t' : Lc} {v : ℚ}

theorem addAse_t (junk : Lc → ℚ) (t : Lc) : (addAse junk t).t = t := rfl

theorem rsetGet_isSome : (e.rsetGet t).isSome = decide (t ∈ e.rset) := by
  rw [Bool.eq_iff_iff]
  simp [OzTags.rsetGet, lcCmpAsTag_eq_zero]

/-- The part that the two updates share. -/
theorem ozTag_upsert {f : OzAse → OzAse} (hf : ∀ a, (f a).t = a.t) (hr : t ∉ e.rset)
    {e' : OzTags} (ha : e'.aset = upsert t (addAse junk t) f e.aset) (hrs : e'.rset = e.rset)
    (t' : Lc) :
    ozTag e' t' = if t' = t then tagUpsert junk t f (ozTag e t) else ozTag e t' := by
  split
  · rename_i h
    subst h
    simp [ozTag, OzTags.asetGet, ha, hrs, hr, tagUpsert, find?_upsert_self hf (addAse_t junk t')]
  · rename_i h
    simp [ozTag, OzTags.asetGet, ha, hrs, find?_upsert_ne hf (addAse_t junk t) h]

/-- The entries after `update_innate_value`. -/
theorem updateInnateValue_aset (junk : Lc → ℚ) (v : ℚ) (hr : t ∉ e.rset) :
    let e' := (e.updateInnateValue junk t v).1
    e'.aset = upsert t (addAse junk t) (fun a => { a with x := v }) e.aset ∧ e'.rset = e.rset := by
  simp only [OzTags.updateInnateValue, rsetGet_isSome, hr, decide_false, Bool.false_eq_true,
    if_false]
  split <;> exact ⟨rfl, rfl⟩

theorem updateInnateValue_of_mem (hr : t ∈ e.rset) :
    e.updateInnateValue junk t v = (e, false) := by
  simp [OzTags.updateInnateValue, rsetGet_isSome, hr]

theorem updateAcquiredValue_aset (junk : Lc → ℚ) (v : ℚ) (hr : t ∉ e.rset) :
    let e' := (e.updateAcquiredValue junk t v).1
    e'.aset = upsert t (addAse junk t) (OzTags.increase v) e.aset ∧ e'.rset = e.rset := by
  simp only [OzTags.updateAcquiredValue, rsetGet_isSome, hr, decide_false, Bool.false_eq_true,
    if_false]
  split
  · exact ⟨rfl, rfl⟩
  · split <;> exact ⟨rfl, rfl⟩

theorem updateAcquiredValue_of_mem (hr : t ∈ e.rset) :
    e.updateAcquiredValue junk t v = (e, false) := by
  simp [OzTags.updateAcquiredValue, rsetGet_isSome, hr]

theorem ozTag_updateInnateValue (t' : Lc) :
    ozTag (e.updateInnateValue junk t v).1 t' =
      if t' = t then tagUpsert junk t (fun a => { a with x := v }) (ozTag e t) else ozTag e t' := by
  by_cases hr : t ∈ e.rset
  · rw [updateInnateValue_of_mem hr]
    split
    · rename_i h; subst h; simp [tagUpsert, ozTag, hr]
    · rfl
  · obtain ⟨ha, hrs⟩ := updateInnateValue_aset junk v hr
    refine ozTag_upsert ?_ hr ha hrs t'
    exact fun _ => rfl

theorem ozTag_updateAcquiredValue (t' : Lc) :
    ozTag (e.updateAcquiredValue junk t v).1 t' =
      if t' = t then tagUpsert junk t (OzTags.increase v) (ozTag e t) else ozTag e t' := by
  by_cases hr : t ∈ e.rset
  · rw [updateAcquiredValue_of_mem hr]
    split
    · rename_i h; subst h; simp [tagUpsert, ozTag, hr]
    · rfl
  · obtain ⟨ha, hrs⟩ := updateAcquiredValue_aset junk v hr
    refine ozTag_upsert ?_ hr ha hrs t'
    exact fun _ => rfl

/-- The element after `remove_tag` of a tag that was not removed. -/
theorem removeTag_eq (hr : t ∉ e.rset) :
    e.removeTag t =
      { innate := if e.innate = some t ∧ t ∈ e.aset.map OzAse.t then none else e.innate
        acquired := if e.acquired = some t ∧ t ∈ e.aset.map OzAse.t then none else e.acquired
        aset := e.aset.eraseP (tagIs t)
        rset := e.rset ++ [t] } := by
  simp only [OzTags.removeTag, rsetGet_isSome, hr, decide_false, Bool.false_eq_true, if_false]
  cases hg : e.aset.find? (tagIs t) with
  | none =>
    have ht := find?_tagIs_none.mp hg
    have he : e.aset.eraseP (tagIs t) = e.aset :=
      List.eraseP_of_forall_not fun a ha h => ht (tagIs_iff.mp h ▸ List.mem_map_of_mem ha)
    simp only [OzTags.asetGet, hg, ht, and_false, if_false, he]
  | some a =>
    have ht : t ∈ e.aset.map OzAse.t := by
      by_contra hn
      rw [find?_tagIs_none.mpr hn] at hg; cases hg
    simp only [OzTags.asetGet, hg, ht, and_true]

theorem removeTag_of_mem (hr : t ∈ e.rset) : e.removeTag t = e := by
  simp [OzTags.removeTag, rsetGet_isSome, hr]

theorem ozTag_removeTag (h : OzWf e) (t t' : Lc) :
    ozTag (e.removeTag t) t' = if t' = t then (true, none) else ozTag e t' := by
  by_cases hr : t ∈ e.rset
  · rw [removeTag_of_mem hr]
    split
    · rename_i ht
      subst ht
      have : e.asetGet t' = none := find?_tagIs_none.mpr fun ht => h.live t' ht hr
      simp [ozTag, hr, this]
    · rfl
  · rw [removeTag_eq hr]
    by_cases ht : t' = t
    · subst ht
      simp [ozTag, OzTags.asetGet, find?_eraseP_self h.nodup]
    · simp [ozTag, OzTags.asetGet, find?_eraseP_ne ht, ht]

theorem OzWf.removeTag (h : OzWf e) (t : Lc) : OzWf (e.removeTag t) := by
  by_cases hr : t ∈ e.rset
  · rw [removeTag_of_mem hr]; exact h
  · have hmem : ∀ t', t' ∈ (e.aset.eraseP (tagIs t)).map OzAse.t ↔
        t' ≠ t ∧ t' ∈ e.aset.map OzAse.t := fun t' => by
      rw [map_eraseP, h.nodup.mem_erase_iff]
    -- A pointer that is kept does not point to the tag that goes.
    have hkeep : ∀ p : Option Lc, (∀ t' ∈ p, t' ∈ e.aset.map OzAse.t) →
        ∀ t' ∈ (if p = some t ∧ t ∈ e.aset.map OzAse.t then none else p),
          t' ∈ (e.aset.eraseP (tagIs t)).map OzAse.t := by
      intro p hp t' ht'
      split at ht'
      · cases ht'
      · rename_i hne
        refine (hmem t').mpr ⟨?_, hp t' ht'⟩
        rintro rfl
        exact hne ⟨ht', hp t' ht'⟩
    rw [removeTag_eq hr]
    refine ⟨?_, fun t' ht' => ?_, hkeep _ h.innate, hkeep _ h.acquired⟩
    · show ((e.aset.eraseP (tagIs t)).map OzAse.t).Nodup
      rw [map_eraseP]; exact h.nodup.erase t
    · obtain ⟨hne, ht'⟩ := (hmem t').mp ht'
      simpa [hne] using h.live t' ht'

/-- The tags after an update. -/
theorem mem_upsert {f : OzAse → OzAse} (hf : ∀ a, (f a).t = a.t) {l : List OzAse} (t' : Lc) :
    t' ∈ (upsert t (addAse junk t) f l).map OzAse.t ↔ t' = t ∨ t' ∈ l.map OzAse.t := by
  rw [map_upsert hf (addAse_t junk t)]
  split
  · rename_i ht
    exact ⟨.inr, fun h => h.elim (fun h => h ▸ ht) id⟩
  · rw [List.mem_append, List.mem_singleton, or_comm]

theorem OzWf.of_upsert {f : OzAse → OzAse} (h : OzWf e) (hr : t ∉ e.rset) {e' : OzTags}
    (ha : e'.aset = upsert t (addAse junk t) f e.aset) (hf : ∀ a, (f a).t = a.t)
    (hrs : e'.rset = e.rset) (hi : ∀ t' ∈ e'.innate, t' = t ∨ t' ∈ e.innate)
    (hq : ∀ t' ∈ e'.acquired, t' = t ∨ t' ∈ e.acquired) : OzWf e' := by
  have hmem : ∀ t', t' ∈ e'.aset.map OzAse.t ↔ t' = t ∨ t' ∈ e.aset.map OzAse.t := fun t' => by
    rw [ha]; exact mem_upsert hf t'
  refine ⟨ha ▸ nodup_upsert hf (addAse_t junk t) h.nodup, fun t' ht' => ?_, fun t' ht' => ?_,
    fun t' ht' => ?_⟩
  · rw [hrs]
    rcases (hmem t').mp ht' with rfl | ht'
    · exact hr
    · exact h.live t' ht'
  · exact (hmem t').mpr ((hi t' ht').imp_right (h.innate t'))
  · exact (hmem t').mpr ((hq t' ht').imp_right (h.acquired t'))

theorem OzWf.updateInnateValue (h : OzWf e) (t : Lc) (v : ℚ) :
    OzWf (e.updateInnateValue junk t v).1 := by
  by_cases hr : t ∈ e.rset
  · rw [updateInnateValue_of_mem hr]; exact h
  · obtain ⟨ha, hrs⟩ := updateInnateValue_aset junk v hr
    refine h.of_upsert hr ha (fun _ => rfl) hrs ?_ ?_ <;>
    · simp only [OzTags.updateInnateValue, rsetGet_isSome, hr, decide_false, Bool.false_eq_true,
        if_false]
      split <;> simp +contextual [eq_comm]

theorem OzWf.updateAcquiredValue (h : OzWf e) (t : Lc) (v : ℚ) :
    OzWf (e.updateAcquiredValue junk t v).1 := by
  by_cases hr : t ∈ e.rset
  · rw [updateAcquiredValue_of_mem hr]; exact h
  · obtain ⟨ha, hrs⟩ := updateAcquiredValue_aset junk v hr
    refine h.of_upsert hr ha (fun _ => rfl) hrs ?_ ?_ <;>
    · simp only [OzTags.updateAcquiredValue, rsetGet_isSome, hr, decide_false, Bool.false_eq_true,
        if_false]
      split
      · simp +contextual
      · split <;> simp +contextual [eq_comm]

/-- `resort` changes the pointers only. -/
theorem resort_aset (e : OzTags) : e.resort.aset = e.aset ∧ e.resort.rset = e.rset := by
  unfold OzTags.resort
  split <;> exact ⟨rfl, rfl⟩

theorem ozTag_resort (e : OzTags) (t : Lc) : ozTag e.resort t = ozTag e t := by
  simp [ozTag, OzTags.asetGet, resort_aset]

/-- A search that keeps its candidate or takes an element of the list. -/
theorem mem_foldl_pick {α : Type} (p : Option α → α → Bool) (l : List α) (q : Option α) (x : α)
    (hx : x ∈ l.foldl (fun q a => if p q a then some a else q) q) : x ∈ q ∨ x ∈ l := by
  induction l generalizing q with
  | nil => exact .inl hx
  | cons a l ih =>
    rcases ih _ hx with h | h
    · dsimp only at h
      split at h
      · cases h; exact .inr (by simp)
      · exact .inl h
    · exact .inr (List.mem_cons_of_mem _ h)

/-- The search for `innate` is one over the tags. -/
theorem foldl_innate (l : List OzAse) (i : Option Lc) :
    l.foldl (fun i a => if i.all fun t => lcCmpAsTag t a.t < 0 then some a.t else i) i =
      (l.map OzAse.t).foldl (fun i t => if i.all fun t' => lcCmpAsTag t' t < 0 then some t else i)
        i := by
  rw [List.foldl_map]

theorem OzWf.resort (h : OzWf e) : OzWf e.resort := by
  obtain ⟨ha, hr⟩ := resort_aset e
  refine ⟨ha ▸ h.nodup, by rw [ha, hr]; exact h.live, fun t ht => ?_, fun t ht => ?_⟩
  · rw [ha]
    unfold OzTags.resort at ht
    split at ht
    · exact h.innate t ht
    · simp only [foldl_innate] at ht
      exact (mem_foldl_pick _ _ _ t ht).elim (h.innate t) id
  · rw [ha]
    unfold OzTags.resort at ht
    split at ht
    · exact h.acquired t ht
    · obtain ⟨a, haq, rfl⟩ := Option.map_eq_some_iff.mp ht
      rcases mem_foldl_pick _ _ _ a haq with hd | hd
      · obtain ⟨t', -, hg⟩ := Option.bind_eq_some_iff.mp hd
        exact List.mem_map_of_mem (find?_tagIs hg).2
      · exact List.mem_map_of_mem hd

end Tags

/-! ## What an operation does to an element -/

section Apply

variable {junk : Lc → ℚ} {e : OzTags} {v : ℚ} {ts : List Lc}

/-- The loop of the increment, without `changed`. -/
theorem ozIncrease_fst :
    (ozIncrease junk v e ts).1 =
      ts.foldl (fun e t => (e.updateAcquiredValue junk t v).1) e := by
  have : ∀ k, (ts.foldl (fun (p : OzTags × ℕ) t =>
      let (e, b) := p.1.updateAcquiredValue junk t v
      (e, p.2 + b.toNat)) (e, k)).1 =
        ts.foldl (fun e t => (e.updateAcquiredValue junk t v).1) e := by
    induction ts generalizing e with
    | nil => exact fun _ => rfl
    | cons t ts ih => exact fun k => ih _
  exact this 0

theorem OzWf.removeTags (h : OzWf e) (ts : List Lc) : OzWf (ts.foldl OzTags.removeTag e) := by
  induction ts generalizing e with
  | nil => exact h
  | cons t ts ih => exact ih (h.removeTag t)

theorem OzWf.apply (h : OzWf e) (z : Option ℚ) (m : OzMsg) : OzWf (ozApply junk e z m).1 := by
  cases m with
  | add v t => exact h.updateInnateValue t v
  | inc v ts =>
    show OzWf (ozIncrease junk v e ts).1
    rw [ozIncrease_fst]
    induction ts generalizing e with
    | nil => exact h
    | cons t ts ih => exact ih (h.updateAcquiredValue t v)
  | rem ts =>
    simp only [ozApply]
    split
    · exact (h.removeTags ts).resort
    · exact h.removeTags ts

theorem ozTag_increase (hts : ts.Nodup) (t : Lc) :
    ozTag (ozIncrease junk v e ts).1 t =
      if t ∈ ts then tagUpsert junk t (OzTags.increase v) (ozTag e t) else ozTag e t := by
  rw [ozIncrease_fst]
  induction ts generalizing e with
  | nil => rfl
  | cons t' ts ih =>
    obtain ⟨hn, hts⟩ := List.nodup_cons.mp hts
    rw [List.foldl_cons, ih hts, ozTag_updateAcquiredValue]
    by_cases ht : t = t'
    · subst ht; simp [hn]
    · simp [ht]

theorem ozTag_remove (h : OzWf e) (t : Lc) :
    ozTag (ts.foldl OzTags.removeTag e) t = if t ∈ ts then (true, none) else ozTag e t := by
  induction ts generalizing e with
  | nil => rfl
  | cons t' ts ih =>
    rw [List.foldl_cons, ih (h.removeTag t'), ozTag_removeTag h t']
    by_cases ht : t = t'
    · subst ht; simp
    · simp [ht]

/-- The tags that a message names, each once. -/
def OzMsg.NodupTags : OzMsg → Prop
  | .add _ _ => True
  | .inc _ ts | .rem ts => ts.Nodup

/-- **An operation acts on each tag by itself.** -/
theorem ozTag_apply (h : OzWf e) (z : Option ℚ) {m : OzMsg} (hm : m.NodupTags) (t : Lc) :
    ozTag (ozApply junk e z m).1 t = tagStep junk t (ozTag e t) m := by
  cases m with
  | add v t' =>
    show ozTag (e.updateInnateValue junk t' v).1 t = _
    rw [ozTag_updateInnateValue, tagStep]
    split
    · rename_i ht; rw [ht]
    · rfl
  | inc v ts => exact ozTag_increase hm t
  | rem ts =>
    rw [tagStep, ← ozTag_remove h]
    simp only [ozApply]
    split
    · exact ozTag_resort _ t
    · rfl

end Apply

end CrdtRedis
