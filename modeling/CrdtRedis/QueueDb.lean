import CrdtRedis.Database

/-!
# RWF queues in a database (`t_rwfzset.c`)

The queue `q` has two entries of the database: its sorted set under `q`, and the table of its
metadata under `q_rwfzets_`. A queue of the second name would have its sorted set where the table of
the first one is, so the names of queues do not end in the suffix (`IsQueueName`).

* `QueueDb`: what is under these keys is a sorted set and a table.
* `rwfzDbPrepare_cell`, `rwfzDbEffect_cell`: the phases change the cell of the element that they
  name, as `rwfzPrepare` and `rwfzEffect` do, and no other.
-/

namespace CrdtRedis

variable {n : ℕ}

/-- `RWF_RPQ_TABLE_SUFFIX`. -/
def rwfRpqTableSuffix : Sds := "_rwfzets_".toList

/-- The key is that of no table. -/
def IsQueueName (key : Sds) : Prop := ¬ rwfRpqTableSuffix <:+ key

instance (key : Sds) : Decidable (IsQueueName key) := inferInstanceAs (Decidable (¬ _))

theorem IsQueueName.ne_table {key : Sds} (h : IsQueueName key) (queue : Sds) :
    key ≠ queue ++ rwfRpqTableSuffix := by
  rintro rfl
  exact h (List.suffix_append ..)

/-! ## The cell of an element -/

/-- The scores in the sorted set of a queue. -/
def Db.scores (db : Db n) (queue : Sds) : Sds → Option ℚ :=
  match db queue with
  | some (.zset score) => score
  | _ => fun _ => none

/-- The elements in the table of a queue. -/
def Db.elements (db : Db n) (queue : Sds) : Sds → Option (Rwfze n) :=
  match db (queue ++ rwfRpqTableSuffix) with
  | some (.rwfzets t) => t
  | _ => fun _ => none

/-- What a database holds of the element `k.2` of the queue `k.1`. -/
def Db.cell (db : Db n) (k : Sds × Sds) : RwfzCell n := ⟨db.elements k.1 k.2, db.scores k.1 k.2⟩

/-- Under the names of queues there are sorted sets, and under those of their tables, tables. -/
structure QueueDb (db : Db n) : Prop where
  zset : ∀ q, IsQueueName q → ∀ v, db q = some v → ∃ score, v = .zset score
  table : ∀ q, IsQueueName q → ∀ v, db (q ++ rwfRpqTableSuffix) = some v → ∃ t, v = .rwfzets t

theorem QueueDb.empty : QueueDb fun _ => (none : Option (DbVal n)) := by
  constructor <;> simp

section Cell

variable {db : Db n} {q : Sds} {k : Sds × Sds}

theorem Db.scores_congr {db' : Db n} (h : db' q = db q) : db'.scores q = db.scores q := by
  unfold Db.scores
  rw [h]

theorem Db.elements_congr {db' : Db n}
    (h : db' (q ++ rwfRpqTableSuffix) = db (q ++ rwfRpqTableSuffix)) :
    db'.elements q = db.elements q := by
  unfold Db.elements
  rw [h]

/-- An element is written. -/
theorem Db.cell_setElement (db : Db n) (k : Sds × Sds) (e : Option (Rwfze n)) (k' : Sds × Sds)
    (hk' : IsQueueName k'.1) : Db.cell (Function.update db (k.1 ++ rwfRpqTableSuffix)
      (some (.rwfzets (Function.update (db.elements k.1) k.2 e)))) k' =
      if k' = k then { db.cell k with ele := e } else db.cell k' := by
  rw [Db.cell, Db.scores_congr (Function.update_of_ne (hk'.ne_table k.1) ..)]
  obtain ⟨q', x'⟩ := k'
  obtain ⟨q, x⟩ := k
  by_cases hq : q' = q
  · subst hq
    by_cases hx : x' = x
    · subst hx
      simp [Db.cell, Db.elements]
    · simp [Db.cell, Db.elements, hx]
  · rw [Db.elements_congr (Function.update_of_ne (fun h => hq (List.append_cancel_right h)) ..)]
    simp [Db.cell, hq]

theorem QueueDb.setTable (h : QueueDb db) (t : Sds → Option (Rwfze n)) :
    QueueDb (Function.update db (q ++ rwfRpqTableSuffix) (some (.rwfzets t))) := by
  refine ⟨fun p hp v hv => ?_, fun p hp v hv => ?_⟩
  · rw [Function.update_of_ne (hp.ne_table q)] at hv
    exact h.zset p hp v hv
  · by_cases hpq : p = q
    · subst hpq
      rw [Function.update_self] at hv
      exact ⟨t, (Option.some.inj hv).symm⟩
    · rw [Function.update_of_ne fun he => hpq (List.append_cancel_right he)] at hv
      exact h.table p hp v hv

/-- A score is written. -/
theorem Db.cell_setScore (hk : IsQueueName k.1) (z : Option ℚ) (k' : Sds × Sds) :
    Db.cell (Function.update db k.1 (some (.zset (Function.update (db.scores k.1) k.2 z)))) k' =
      if k' = k then { db.cell k with zset := z } else db.cell k' := by
  rw [Db.cell, Db.elements_congr (Function.update_of_ne (hk.ne_table k'.1).symm ..)]
  obtain ⟨q', x'⟩ := k'
  obtain ⟨q, x⟩ := k
  by_cases hq : q' = q
  · subst hq
    by_cases hx : x' = x
    · subst hx
      simp [Db.cell, Db.scores]
    · simp [Db.cell, Db.scores, hx]
  · rw [Db.scores_congr (Function.update_of_ne hq ..)]
    simp [Db.cell, hq]

theorem QueueDb.setScores (h : QueueDb db) (hq : IsQueueName q) (score : Sds → Option ℚ) :
    QueueDb (Function.update db q (some (.zset score))) := by
  refine ⟨fun p hp v hv => ?_, fun p hp v hv => ?_⟩
  · by_cases hpq : p = q
    · subst hpq
      rw [Function.update_self] at hv
      exact ⟨score, (Option.some.inj hv).symm⟩
    · rw [Function.update_of_ne hpq] at hv
      exact h.zset p hp v hv
  · rw [Function.update_of_ne (hq.ne_table p).symm] at hv
    exact h.table p hp v hv

/-- `rehHTGet` finds the elements. -/
theorem QueueDb.get_table (h : QueueDb db) (hq : IsQueueName q) :
    (rwfzets.get db (q ++ rwfRpqTableSuffix) fun _ => none) = some (db.elements q) := by
  unfold Stored.get Db.elements
  cases hv : db (q ++ rwfRpqTableSuffix) with
  | none => rfl
  | some v =>
    obtain ⟨t, rfl⟩ := h.table q hq v hv
    rfl

/-- An entry is put back into its table, which is made if it is not there and has an entry now. -/
theorem QueueDb.putElement (h : QueueDb db) (k : Sds × Sds) (e : Option (Rwfze n)) :
    let db' := rwfzets.put db (k.1 ++ rwfRpqTableSuffix)
      (Function.update (db.elements k.1) k.2 e) e.isSome
    QueueDb db' ∧ ∀ k', IsQueueName k'.1 →
      db'.cell k' = if k' = k then { db.cell k with ele := e } else db.cell k' := by
  simp only [Stored.put]
  split
  · exact ⟨h.setTable _, Db.cell_setElement db k e⟩
  · rename_i hnone
    simp only [Bool.or_eq_true, Option.isSome_iff_ne_none, not_or, not_not] at hnone
    obtain ⟨htable, rfl⟩ := hnone
    refine ⟨h, fun k' _ => ?_⟩
    split
    · rename_i hkk
      rw [hkk]
      simp [Db.cell, Db.elements, htable]
    · rfl

end Cell

/-! ## The phases -/

/-- The prepare phases, on the entry of the element in the table. -/
def rwfzElePrepare (r : Fin n) (e : Option (Rwfze n)) (o : ZCmd) :
    Option (Rwfze n) × Except ReplyErr (RwfzMsg n) :=
  let p := rwfzPrepare r ⟨e, none⟩ o
  (p.1.ele, p.2)

/-- The prepare phase of a command on the element `k`. -/
def rwfzDbPrepare (r : Fin n) (db : Db n) (k : Sds × Sds) (o : ZCmd) :
    Option (Db n × Except DbErr (RwfzMsg n)) :=
  queuePrepare rwfzets rwfRpqTableSuffix (rwfzElePrepare r) db k.1 k.2 o

/-- The effect phases. The table and the element are made if they are not there (`GET_RWFZE` with
`create`), and so is the sorted set where a score is removed or written (`getZsetOrCreate`). -/
def rwfzDbEffect (r : Fin n) (db : Db n) (k : Sds × Sds) (m : RwfzMsg n) : Db n :=
  let c := db.cell k
  let c' := rwfzEffect r c m
  let db' : Db n := Function.update db (k.1 ++ rwfRpqTableSuffix)
    (some (.rwfzets (Function.update (db.elements k.1) k.2 c'.ele)))
  if (removeCheck (c.get r).header m.t).2 || c'.zset.isSome then
    Function.update db' k.1 (some (.zset (Function.update (db'.scores k.1) k.2 c'.zset)))
  else db'

section Phases

variable {r : Fin n} {db : Db n} {k : Sds × Sds}

/-- The database prepares as the list of all writes does. -/
theorem dbPrepare_rwfz (r : Fin n) (junk : Sds → Fin n → Sds → Normal → BitVec 32) (db : Db n)
    (k : Sds × Sds) (o : ZCmd) :
    dbPrepare r junk db (.rwfz k.1 k.2 o) =
      (rwfzDbPrepare r db k o).map fun p => (p.1, p.2.map .rwfz) := rfl

/-- The prepare phases do not look at the score. -/
theorem rwfzPrepare_eq (r : Fin n) (c : RwfzCell n) (o : ZCmd) :
    rwfzPrepare r c o =
      ({ c with ele := (rwfzElePrepare r c.ele o).1 }, (rwfzElePrepare r c.ele o).2) := by
  cases o with
  | zadd argc v =>
    simp only [rwfzElePrepare, rwfzPrepare]
    split <;> rfl
  | zincrby argc v =>
    simp only [rwfzElePrepare, rwfzPrepare]
    split <;> rfl
  | zrem argc =>
    simp only [rwfzElePrepare, rwfzPrepare]
    split <;> rfl

/-- The first checks are those of the phase of the cell, which is not changed where they fail. -/
theorem rwfzPrepare_check (hdb : QueueDb db) (hk : IsQueueName k.1) (c : RwfzCell n) {o : ZCmd}
    {err : DbErr} (h : dbCheck db k.1 .zset o.maxArgc o.argc o.checkArgs = .error err) :
    ∃ e, err = .reply e ∧ rwfzPrepare r c o = (c, .error e) := by
  have htype : (db k.1).any (fun v => v.type ≠ .zset) = false := by
    cases hv : db k.1 with
    | none => rfl
    | some v =>
      obtain ⟨score, rfl⟩ := hdb.zset k.1 hk v hv
      rfl
  simp only [dbCheck, htype, Bool.false_eq_true, if_false] at h
  cases hargc : checkArgc o.maxArgc o.argc with
  | error e =>
    rw [hargc] at h
    cases h
    refine ⟨e, rfl, ?_⟩
    cases o <;> simp only [ZCmd.maxArgc, ZCmd.argc] at hargc <;> simp [rwfzPrepare, hargc]
  | ok u =>
    rw [hargc] at h
    cases hargs : o.checkArgs with
    | ok u =>
      rw [hargs] at h
      cases h
    | error e =>
      rw [hargs] at h
      cases h
      refine ⟨e, rfl, ?_⟩
      cases o with
      | zrem argc => cases hargs
      | zadd argc v | zincrby argc v =>
        cases v with
        | some v => cases hargs
        | none =>
          simp only [ZCmd.maxArgc, ZCmd.argc] at hargc
          cases hargs
          simp [rwfzPrepare, hargc, checkArg]

/-- **The prepare phase in a database**: it is that of the cell of the element, and changes no other
cell. -/
theorem rwfzDbPrepare_cell (hdb : QueueDb db) (hk : IsQueueName k.1) (o : ZCmd) :
    ∃ db', rwfzDbPrepare r db k o = some (db', (rwfzPrepare r (db.cell k) o).2.mapError .reply) ∧
      QueueDb db' ∧ ∀ k', IsQueueName k'.1 →
        db'.cell k' = if k' = k then (rwfzPrepare r (db.cell k) o).1 else db.cell k' := by
  unfold rwfzDbPrepare queuePrepare
  cases hcheck : dbCheck db k.1 .zset o.maxArgc o.argc o.checkArgs with
  | error err =>
    obtain ⟨e, rfl, hp⟩ := rwfzPrepare_check (r := r) hdb hk (db.cell k) hcheck
    rw [hp]
    refine ⟨db, rfl, hdb, fun k' _ => ?_⟩
    split
    · rename_i hkk
      rw [hkk]
    · rfl
  | ok u =>
    simp only
    rw [hdb.get_table hk]
    have hele : (db.cell k).ele = db.elements k.1 k.2 := rfl
    rw [rwfzPrepare_eq r (db.cell k) o, hele]
    exact ⟨_, rfl, hdb.putElement k _⟩

/-- A phase that neither removes nor writes a score leaves none. -/
theorem rwfzEffect_zset {c : RwfzCell n} {m : RwfzMsg n}
    (h : (removeCheck (c.get r).header m.t).2 = false) (hz : (rwfzEffect r c m).zset = none) :
    c.zset = none := by
  rcases hc : removeCheck (c.get r).header m.t with ⟨hd, b⟩
  obtain rfl : b = false := by simpa [hc] using h
  cases m with
  | rem t => simpa [rwfzEffect, rwfzRemoveFunc, hc] using hz
  | add v t =>
    simp only [rwfzEffect, rwfzRemoveFunc, hc] at hz
    split at hz
    · cases hz
    · exact hz
  | upd v t =>
    simp only [rwfzEffect, rwfzRemoveFunc, hc] at hz
    split at hz
    · cases hz
    · exact hz

/-- **The effect phase in a database**: it is that of the cell of the element, and changes no other
cell. -/
theorem rwfzDbEffect_cell (hdb : QueueDb db) (hk : IsQueueName k.1) (m : RwfzMsg n) :
    QueueDb (rwfzDbEffect r db k m) ∧ ∀ k', IsQueueName k'.1 →
      (rwfzDbEffect r db k m).cell k' =
        if k' = k then rwfzEffect r (db.cell k) m else db.cell k' := by
  have htable := Db.cell_setElement db k (rwfzEffect r (db.cell k) m).ele
  unfold rwfzDbEffect
  simp only
  split
  · refine ⟨(hdb.setTable _).setScores hk _, fun k' hk' => ?_⟩
    rw [Db.cell_setScore hk, htable k hk, htable k' hk', if_pos rfl]
    split <;> rfl
  · rename_i hzset
    simp only [Bool.or_eq_true, not_or, Bool.not_eq_true, Option.isSome_eq_false_iff,
      Option.isNone_iff_eq_none] at hzset
    refine ⟨hdb.setTable _, fun k' hk' => ?_⟩
    rw [htable k' hk']
    split
    · have hsame : (db.cell k).zset = (rwfzEffect r (db.cell k) m).zset :=
        (rwfzEffect_zset hzset.1 hzset.2).trans hzset.2.symm
      simp only [hsame]
    · rfl

end Phases

end CrdtRedis
