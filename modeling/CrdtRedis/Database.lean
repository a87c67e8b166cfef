import CrdtRedis.Client
import CrdtRedis.ListGrounded
import CrdtRedis.OZset.Model
import CrdtRedis.RZset

/-!
# The database and the commands that are refused (`CRDT.h`, `RWFramework.c`)

The five data types keep their objects under the keys of one database. A queue has two keys, its
own for the visible sorted set and one with a suffix for the hash of its elements; a list has one,
for its hash. The prepare phases of the fifteen writes start with the same checks (`dbCheck`) and
then look up the element, some of them with `create`: this makes the hash and the element if they
are not there. A phase that reads the hash of another type as its own has no result.

* `dbPrepare_error`: a prepare phase that replies with an error leaves the database as it was,
  unless it is that of an insert that adds again an element that its list does not know.
* `dbPrepare_readd`: such an insert changes the database and fails.
* `refused_untouched_iff`: what this means for the command of a client.
-/

namespace CrdtRedis

open Broadcast

variable {n : ℕ}

/-! ## The database -/

/-- The types of objects. -/
inductive ObjType where
  | string
  | list
  | set
  | zset
  | hash
  | mod
  | stream
  deriving DecidableEq

/-- The objects. -/
inductive DbVal (n : ℕ) where
  /-- The visible sorted set of a queue. -/
  | zset (score : Sds → Option ℚ)
  | rwfzets (t : Sds → Option (Rwfze n))
  | ozets (t : Sds → Option Oze)
  | rzets (t : Sds → Option (Rze n))
  | rwfl (ht : RwfHt n)
  | rl (x : RlSt n)
  /-- An object that is none of these. -/
  | other (type : ObjType)

def DbVal.type : DbVal n → ObjType
  | .zset _ => .zset
  | .rwfzets _ | .ozets _ | .rzets _ | .rwfl _ | .rl _ => .hash
  | .other type => type

abbrev Db (n : ℕ) := Sds → Option (DbVal n)

/-- The hashes that hold an `S`. -/
structure Stored (n : ℕ) (S : Type) where
  val : S → DbVal n
  own : DbVal n → Option S
  own_iff : ∀ v s, own v = some s ↔ v = val s
  hash : ∀ s, (val s).type = .hash

def rwfzets : Stored n (Sds → Option (Rwfze n)) where
  val := .rwfzets
  own v := match v with
    | .rwfzets t => some t
    | _ => none
  own_iff v t := by cases v <;> simp
  hash _ := rfl

def ozets : Stored n (Sds → Option Oze) where
  val := .ozets
  own v := match v with
    | .ozets t => some t
    | _ => none
  own_iff v t := by cases v <;> simp
  hash _ := rfl

def rzets : Stored n (Sds → Option (Rze n)) where
  val := .rzets
  own v := match v with
    | .rzets t => some t
    | _ => none
  own_iff v t := by cases v <;> simp
  hash _ := rfl

def rwflHash : Stored n (RwfHt n) where
  val := .rwfl
  own v := match v with
    | .rwfl ht => some ht
    | _ => none
  own_iff v ht := by cases v <;> simp
  hash _ := rfl

def rlHash : Stored n (RlSt n) where
  val := .rl
  own v := match v with
    | .rl x => some x
    | _ => none
  own_iff v x := by cases v <;> simp
  hash _ := rfl

section Stored

variable {S : Type} (K : Stored n S) (db : Db n) (name : Sds)

/-- What is under `name`: `new` if there is no object. -/
def Stored.get (new : S) : Option S :=
  match db name with
  | none => some new
  | some v => K.own v

/-- The database with `s` under `name`. A hash that is not there is made if an element is got with
`create` (`getInnerHT`). -/
def Stored.put (s : S) (create : Bool) : Db n :=
  if (db name).isSome || create then Function.update db name (some (K.val s)) else db

end Stored

/-! ## The prepare phases -/

/-- The error replies. -/
inductive DbErr where
  /-- `shared.wrongtypeerr`. -/
  | wrongType
  | reply (err : ReplyErr)
  deriving DecidableEq

/-- The first checks of a prepare phase: `CHECK_ARGC`, `CHECK_CONTAINER_TYPE` and those of the
number arguments. -/
def dbCheck (db : Db n) (tname : Sds) (type : ObjType) (max argc : ℕ)
    (args : Except ReplyErr Unit) : Except DbErr Unit :=
  match checkArgc max argc with
  | .error err => .error (.reply err)
  | .ok _ =>
    if (db tname).any fun v => v.type ≠ type then .error .wrongType
    else args.mapError .reply

/-- The number of arguments of a command and the most that its prepare phase takes. -/
def ZCmd.argc : ZCmd → ℕ
  | .zadd argc _ | .zincrby argc _ | .zrem argc => argc

def ZCmd.maxArgc : ZCmd → ℕ
  | .zadd .. | .zincrby .. => 4
  | .zrem _ => 3

/-- The check of the number argument. -/
def ZCmd.checkArgs : ZCmd → Except ReplyErr Unit
  | .zadd _ v | .zincrby _ v => (checkArg .notFloat v).map fun _ => ()
  | .zrem _ => .ok ()

/-- The prepare phase of a queue command, from what it does to the element's entry. -/
def queuePrepare {E M : Type} (K : Stored n (Sds → Option E)) (suffix : Sds)
    (prepare : Option E → ZCmd → Option E × Except ReplyErr M) (db : Db n) (tname key : Sds)
    (o : ZCmd) : Option (Db n × Except DbErr M) :=
  match dbCheck db tname .zset o.maxArgc o.argc o.checkArgs with
  | .error err => some (db, .error err)
  | .ok _ =>
    (K.get db (tname ++ suffix) fun _ => none).map fun t =>
      let p := prepare (t key) o
      (K.put db (tname ++ suffix) (Function.update t key p.1) p.1.isSome, p.2.mapError .reply)

/-- The prepare phase of a list command, from what it does to the list. -/
def listPrepare {S M : Type} (K : Stored n S) (new : S) (table : S → Sds → Option Cell)
    (prepare : S → LCmd → Option (S × Except ReplyErr M)) (db : Db n) (tname : Sds) (o : LCmd) :
    Option (Db n × Except DbErr M) :=
  match dbCheck db tname .hash o.maxArgc o.argc o.checkArgs with
  | .error err => some (db, .error err)
  | .ok _ =>
    (K.get db tname new).bind fun s =>
      (prepare s o).map fun p =>
        (K.put db tname p.1 (table p.1 o.id).isSome, p.2.mapError .reply)

/-- A write: its data type, the names of the object and, for a queue, of the element, and the rest
of its arguments. -/
inductive DbCmd where
  | rwfz (tname key : Sds) (o : ZCmd)
  | oz (tname key : Sds) (o : ZCmd)
  | rz (tname key : Sds) (o : ZCmd)
  | rwfl (tname : Sds) (o : LCmd)
  | rl (tname : Sds) (o : LCmd)

/-- What a write sends. -/
inductive DbMsg (n : ℕ) where
  | rwfz (m : RwfzMsg n)
  | oz (m : OzMsg)
  | rz (m : RzMsg n)
  | rwfl (m : RwflMsg n)
  | rl (m : RlMsg n)

/-- A list that is not there yet. -/
def rwflNew (r : Fin n) (junk : Fin n → Sds → Normal → BitVec 32) : RwfHt n :=
  .new r fun k => rwfleNew r (junk r k)

def rlNew (r : Fin n) : RlSt n := ⟨.new r fun _ => .new, [], []⟩

/-- The prepare phases at replica `r`; a new element `k` of the list `l` has the fields `junk l r k`
(`rwfleNew`). No prepare phase of a queue reads the sorted set. -/
def dbPrepare (r : Fin n) (junk : Sds → Fin n → Sds → Normal → BitVec 32) (db : Db n) :
    DbCmd → Option (Db n × Except DbErr (DbMsg n))
  | .rwfz tname key o =>
    (queuePrepare rwfzets "_rwfzets_".toList
      (fun e o => let p := rwfzPrepare r ⟨e, none⟩ o; (p.1.ele, p.2)) db tname key o).map
        fun p => (p.1, p.2.map .rwfz)
  | .oz tname key o =>
    (queuePrepare ozets "_ozets_".toList
      (fun e o => let p := ozPrepare r ⟨e, none⟩ o; (p.1.ele, p.2)) db tname key o).map
        fun p => (p.1, p.2.map .oz)
  | .rz tname key o =>
    (queuePrepare rzets "_rzets_".toList
      (fun e o =>
        let p := rzPrepare r (e.map fun e => ⟨e, none, []⟩) o
        (p.1.map RzCell.e, p.2)) db tname key o).map
        fun p => (p.1, p.2.map .rz)
  | .rwfl tname o =>
    (listPrepare rwflHash (rwflNew r (junk tname)) Ht.table (rwflPrepare r) db tname o).map
      fun p => (p.1, p.2.map .rwfl)
  | .rl tname o =>
    (listPrepare rlHash (rlNew r) (fun x => x.ht.table)
      (fun x o => (rlPrepare x.ht o).map fun p => ({ x with ht := p.1 }, p.2)) db tname o).map
        fun p => (p.1, p.2.map .rl)

/-- The lists of the database are states of replica `r` in some run. -/
def Db.Reached (r : Fin n) (junk : Sds → Fin n → Sds → Normal → BitVec 32) (db : Db n) : Prop :=
  ∀ k v, db k = some v →
    match v with
    | .rwfl ht => ∃ s, (rwflObj n (junk k)).Reach anyOrder s ∧ s.st r = some ht
    | .rl x => ∃ s, (rlObj n).Reach anyOrder s ∧ s.st r = some x
    | _ => True

/-- The write is an insert, with arguments that pass the checks, that adds again (`readd`) an
element that its list does not know. -/
def ReaddsUnknown (r : Fin n) (junk : Sds → Fin n → Sds → Normal → BitVec 32) (db : Db n) :
    DbCmd → Prop
  | .rwfl tname o => ∃ ht, rwflHash.get db tname (rwflNew r (junk tname)) = some ht ∧
      o.ReaddsUnknown Rwfle.present ht
  | .rl tname o => ∃ x, rlHash.get db tname (rlNew r) = some x ∧
      o.ReaddsUnknown RwSets.lookup x.ht
  | .rwfz .. | .oz .. | .rz .. => False

/-! ## Entries that do not change -/

section Stored

variable {S : Type} {K : Stored n S} {db db' : Db n} {name : Sds} {new s : S} {b : Bool}

theorem Stored.get_cases (hg : K.get db name new = some s) :
    (db name = none ∧ s = new) ∨ db name = some (K.val s) := by
  unfold get at hg
  split at hg
  · rename_i hv
    exact .inl ⟨hv, (Option.some.inj hg).symm⟩
  · rename_i v hv
    rw [hv, (K.own_iff v s).mp hg]
    exact .inr rfl

/-- What was read and is put back changes nothing, unless it makes the hash. -/
theorem Stored.put_get (hg : K.get db name new = some s) (hb : b = true → s ≠ new) :
    K.put db name s b = db := by
  unfold put
  rcases get_cases hg with ⟨hv, rfl⟩ | hv
  · have hb' : b = false := by
      by_contra h
      exact hb (by simpa using h) rfl
    simp [hv, hb']
  · rw [← hv, Function.update_eq_self, ite_self]

/-- A new value, or one where there was none, changes the database. -/
theorem Stored.put_ne {s' : S} (hg : K.get db name new = some s) (hne : s' ≠ s) :
    K.put db name s' true ≠ db := by
  intro heq
  have hname : some (K.val s') = db name := by simpa [put] using congrFun heq name
  have hown : ∀ x, K.own (K.val x) = some x := fun x => (K.own_iff _ x).mpr rfl
  rcases get_cases hg with ⟨hv, -⟩ | hv
  · rw [hv] at hname
    cases hname
  · rw [hv] at hname
    have heq' := congrArg K.own (Option.some.inj hname)
    rw [hown, hown] at heq'
    exact hne (Option.some.inj heq')

/-- An object of the type passes the check of the type. -/
theorem Stored.dbCheck_ok {max argc : ℕ} {args : Except ReplyErr Unit}
    (hg : K.get db name new = some s) (hargc : checkArgc max argc = .ok ())
    (hargs : args = .ok ()) :
    dbCheck db name .hash max argc args = .ok () := by
  have htype : (db name).any (fun v => v.type ≠ .hash) = false := by
    rcases get_cases hg with ⟨hv, -⟩ | hv
    · rw [hv]; rfl
    · simp [hv, K.hash]
  simp only [dbCheck, hargc, htype, hargs]
  rfl

end Stored

/-! ## A command that is refused -/

section Refused

variable {r : Fin n} {db db' : Db n} {tname key suffix : Sds} {err : DbErr}

theorem mapError_error {α : Type} {res : Except ReplyErr α}
    (h : res.mapError DbErr.reply = .error err) : ∃ e, res = .error e ∧ err = .reply e := by
  cases res with
  | error e => cases h; exact ⟨e, rfl, rfl⟩
  | ok a => cases h

/-- A queue command that fails only where it leaves the entry alone leaves the database alone. -/
theorem queuePrepare_error {E M : Type} {K : Stored n (Sds → Option E)}
    {prepare : Option E → ZCmd → Option E × Except ReplyErr M} {o : ZCmd}
    (hprep : ∀ e err, (prepare e o).2 = .error err → (prepare e o).1 = e)
    (h : queuePrepare K suffix prepare db tname key o = some (db', .error err)) : db' = db := by
  unfold queuePrepare at h
  split at h
  · cases h; rfl
  · obtain ⟨t, ht, h⟩ := Option.map_eq_some_iff.mp h
    dsimp only at h
    obtain ⟨rfl, hres⟩ := Prod.mk.inj h
    obtain ⟨e, he, -⟩ := mapError_error hres
    rw [hprep (t key) e he, Function.update_eq_self]
    refine Stored.put_get ht fun hsome hnew => ?_
    -- Without a hash there is no entry.
    rw [hnew] at hsome
    cases hsome

/-- A list command that fails only where it leaves the list alone leaves the database alone. -/
theorem listPrepare_error {S M : Type} {K : Stored n S} {new : S} {table : S → Sds → Option Cell}
    {prepare : S → LCmd → Option (S × Except ReplyErr M)} {o : LCmd}
    (hnew : ∀ k, table new k = none)
    (hprep : ∀ s s' err, K.get db tname new = some s → prepare s o = some (s', .error err) → s' = s)
    (h : listPrepare K new table prepare db tname o = some (db', .error err)) : db' = db := by
  unfold listPrepare at h
  split at h
  · cases h; rfl
  · obtain ⟨s, hs, h⟩ := Option.bind_eq_some_iff.mp h
    obtain ⟨⟨s', res⟩, hp, h⟩ := Option.map_eq_some_iff.mp h
    obtain ⟨rfl, hres⟩ := Prod.mk.inj h
    obtain ⟨e, rfl, -⟩ := mapError_error hres
    obtain rfl := hprep s s' e hs hp
    refine Stored.put_get hs fun hsome heq => ?_
    rw [heq, hnew] at hsome
    cases hsome

/-- A list command that makes an element and fails changes the database. -/
theorem listPrepare_changes {S M : Type} {K : Stored n S} {new s s' : S}
    (table : S → Sds → Option Cell) (prepare : S → LCmd → Option (S × Except ReplyErr M))
    {o : LCmd} {e : ReplyErr} (hs : K.get db tname new = some s)
    (hargc : checkArgc o.maxArgc o.argc = .ok ()) (hargs : o.checkArgs = .ok ())
    (hp : prepare s o = some (s', .error e)) (hid : table s o.id = none)
    (hid' : table s' o.id ≠ none) :
    ∃ db', listPrepare K new table prepare db tname o = some (db', .error (.reply e)) ∧
      db' ≠ db := by
  have hmade : (table s' o.id).isSome = true := Option.isSome_iff_ne_none.mpr hid'
  have hne : s' ≠ s := by
    rintro rfl
    exact hid' hid
  refine ⟨K.put db tname s' true, ?_, Stored.put_ne hs hne⟩
  simp only [listPrepare, Stored.dbCheck_ok hs hargc hargs, hs, Option.bind_some, hp,
    Option.map_some, hmade]
  rfl

/-! ### The prepare phases of the queues -/

theorem rwfzPrepare_error {c : RwfzCell n} {o : ZCmd} {e : ReplyErr}
    (h : (rwfzPrepare r c o).2 = .error e) : (rwfzPrepare r c o).1.ele = c.ele := by
  cases o with
  | zadd argc v =>
    simp only [rwfzPrepare] at h ⊢
    split
    · rfl
    · rfl
    · rename_i w hw hne
      rw [checkArgc_ok hne, hw] at h
      -- A new element does not exist, so the add of one is accepted.
      have hnew : (rwfzeNew r).header.exists = false := rfl
      cases hc : c.ele with
      | some x => simp [RwfzCell.get, hc]
      | none => simp only [RwfzCell.get, hc, Option.getD_none, hnew] at h; cases h
  | zincrby argc v => simp only [rwfzPrepare]; split <;> rfl
  | zrem argc => simp only [rwfzPrepare]; split <;> rfl

theorem ozPrepare_error {c : OzCell} {o : ZCmd} {e : ReplyErr}
    (h : (ozPrepare r c o).2 = .error e) : (ozPrepare r c o).1.ele = c.ele := by
  cases o with
  | zadd argc v =>
    simp only [ozPrepare] at h ⊢
    split
    · rfl
    · rfl
    · rename_i w hw hne
      rw [checkArgc_ok hne, hw] at h
      have hnew : ozeNew.lookup = false := rfl
      cases hc : c.ele with
      | some x =>
        simp only [OzCell.get, hc, Option.getD_some] at h ⊢
        split at h
        · rename_i hl
          simp [hl]
        · cases h
      | none => simp only [OzCell.get, hc, Option.getD_none, hnew] at h; cases h
  | zincrby argc v => simp only [ozPrepare]; split <;> rfl
  | zrem argc => simp only [ozPrepare]; split <;> rfl

theorem rzPrepare_error {c : Option (RzCell n)} {o : ZCmd} {e : ReplyErr}
    (h : (rzPrepare r c o).2 = .error e) : (rzPrepare r c o).1 = c := by
  cases o with
  | zadd argc v =>
    simp only [rzPrepare] at h ⊢
    split
    · rfl
    · rfl
    · rename_i w hw hne
      rw [checkArgc_ok hne, hw] at h
      have hnew : (rzCellNew r).e.lookup = false := rfl
      cases c with
      | some x => rfl
      | none => simp only [Option.getD_none, hnew] at h; cases h
  | zincrby argc v => simp only [rzPrepare]; split <;> rfl
  | zrem argc => simp only [rzPrepare]; split <;> rfl

/-! ### All writes -/

variable {junk : Sds → Fin n → Sds → Normal → BitVec 32} {w : DbCmd}

theorem Db.Reached.rwfl_grounded {ht : RwfHt n} (hdb : db.Reached r junk)
    (hg : rwflHash.get db tname (rwflNew r (junk tname)) = some ht) :
    Ht.Grounded Rwfle.present ht := by
  rcases Stored.get_cases hg with ⟨-, rfl⟩ | hv
  · exact .new fun _ => rfl
  · obtain ⟨s, hs, hst⟩ := hdb tname _ hv
    exact CrdtRedis.rwfl_grounded hs hst

theorem Db.Reached.rl_grounded {x : RlSt n} (hdb : db.Reached r junk)
    (hg : rlHash.get db tname (rlNew r) = some x) : Ht.Grounded RwSets.lookup x.ht := by
  rcases Stored.get_cases hg with ⟨-, rfl⟩ | hv
  · exact .new fun _ => rfl
  · obtain ⟨s, hs, hst⟩ := hdb tname _ hv
    exact CrdtRedis.rl_grounded hs hst

/-- An error is one of the data type's prepare phase. -/
theorem map_error {M M' : Type} {f : M → M'} {p : Option (Db n × Except DbErr M)}
    (h : (p.map fun p => (p.1, p.2.map f)) = some (db', .error err)) :
    p = some (db', .error err) := by
  obtain ⟨⟨db₁, res⟩, rfl, h⟩ := Option.map_eq_some_iff.mp h
  cases res with
  | error e => cases h; rfl
  | ok m => cases h

/-- **A prepare phase that replies with an error** leaves the database as it was, or is that of an
insert that adds again an unknown element. -/
theorem dbPrepare_error (hdb : db.Reached r junk)
    (h : dbPrepare r junk db w = some (db', .error err)) :
    db' = db ∨ ReaddsUnknown r junk db w := by
  cases w with
  | rwfz tname key o =>
    exact .inl (queuePrepare_error (fun e _ he => rwfzPrepare_error (c := ⟨e, none⟩) he)
      (map_error h))
  | oz tname key o =>
    exact .inl (queuePrepare_error (fun e _ he => ozPrepare_error (c := ⟨e, none⟩) he)
      (map_error h))
  | rz tname key o =>
    refine .inl (queuePrepare_error (fun e _ he => ?_) (map_error h))
    dsimp only at he ⊢
    rw [rzPrepare_error he]
    cases e <;> rfl
  | rwfl tname o =>
    by_cases hu : ReaddsUnknown r junk db (.rwfl tname o)
    · exact .inr hu
    · refine .inl (listPrepare_error (fun _ => rfl) (fun ht ht' e hg hp => ?_) (map_error h))
      refine (rwflPrepare_error (hdb.rwfl_grounded hg) hp).resolve_right fun hro => ?_
      exact hu ⟨ht, hg, hro⟩
  | rl tname o =>
    by_cases hu : ReaddsUnknown r junk db (.rl tname o)
    · exact .inr hu
    · refine .inl (listPrepare_error (fun _ => rfl) (fun x x' e hg hp => ?_) (map_error h))
      obtain ⟨⟨ht', res⟩, hrl, heq⟩ := Option.map_eq_some_iff.mp hp
      cases heq
      rw [(rlPrepare_error (hdb.rl_grounded hg) hrl).resolve_right fun hro => hu ⟨x, hg, hro⟩]

theorem Ht.withEle_has {X : Type} {ht : Ht n X} {k : Sds} (h : ht.table k = none) :
    (ht.withEle k).table k ≠ none := by
  simp [Ht.withEle, h]

/-- An insert that adds again an unknown element changes the database and fails. -/
theorem dbPrepare_readd (hdb : db.Reached r junk) (hw : ReaddsUnknown r junk db w) :
    ∃ db' err, dbPrepare r junk db w = some (db', .error err) ∧ db' ≠ db := by
  cases w with
  | rwfz tname key o => exact hw.elim
  | oz tname key o => exact hw.elim
  | rz tname key o => exact hw.elim
  | rwfl tname o =>
    obtain ⟨ht, hg, ho⟩ := hw
    have hp := rwflPrepare_readd (r := r) (hdb.rwfl_grounded hg) ho
    obtain ⟨db', hl, hne⟩ := listPrepare_changes Ht.table (rwflPrepare r) hg
      ho.1 ho.2.1 hp ho.table_id (Ht.withEle_has ho.table_id)
    exact ⟨db', _, by simp only [dbPrepare, hl, Option.map_some]; rfl, hne⟩
  | rl tname o =>
    obtain ⟨x, hg, ho⟩ := hw
    have hp := rlPrepare_readd (hdb.rl_grounded hg) ho
    obtain ⟨db', hl, hne⟩ := listPrepare_changes (fun x : RlSt n => x.ht.table)
      (fun x o => (rlPrepare x.ht o).map fun p => ({ x with ht := p.1 }, p.2)) hg
      ho.1 ho.2.1 (by rw [hp]; rfl) ho.table_id (Ht.withEle_has ho.table_id)
    exact ⟨db', _, by simp only [dbPrepare, hl, Option.map_some]; rfl, hne⟩

end Refused

/-! ## The command of a client -/

/-- The writes of the database at replica `r`, on a database that is still defined. What a message
adds to the arguments (`rargv`) and the effect phases are parameters. -/
def dbTable {A : Type} (r : Fin n) (junk : Sds → Fin n → Sds → Normal → BitVec 32)
    (rargv : DbMsg n → List A) (effect : DbCmd → Option (Db n) → List A → Option (Db n)) :
    CrdtTable A (Option (Db n)) DbCmd where
  prepare w db _ :=
    match db.bind fun db => dbPrepare r junk db w with
    | none => (none, none)
    | some (db, res) => (some db, res.toOption.map rargv)
  effect := effect

section Client

variable {A : Type} {r : Fin n} {junk : Sds → Fin n → Sds → Normal → BitVec 32}
  {rargv : DbMsg n → List A} {effect : DbCmd → Option (Db n) → List A → Option (Db n)}
  {s : Server A (Option (Db n))} {c : Client A (Option (Db n)) DbCmd} {db db' : Db n} {w : DbCmd}
  {err : DbErr}

/-- A broadcast leaves the server as it was exactly if there is nothing to send, or no link. -/
theorem broadcastRargv_eq_iff {D : Type} {s s' : Server A D} (hr : s'.replicas = s.replicas)
    (o : Option (Rargv A)) :
    broadcastRargv s' o = s ↔ s' = s ∧ (o = none ∨ s.replicas = []) := by
  cases o with
  | none => simp [broadcastRargv]
  | some r =>
    by_cases hnil : s.replicas = []
    · simp [broadcastRargv_nil (hr.trans hnil), hnil]
    · refine iff_of_false (fun he => ?_) (by simp [hnil])
      have hlinks : s.replicas.map (· ++ [r.args]) = s.replicas := by
        conv_rhs => rw [← he]
        simp [broadcastRargv, replicationBroadcast, hr]
      obtain ⟨l, ls, hcons⟩ := List.exists_cons_of_ne_nil hnil
      simp [hcons] at hlinks

/-- The call of a write whose prepare phase replies with an error. -/
theorem call_refused (argv : List A) (hs : s.db = some db) (hmode : s.replicationMode = true)
    (hc : c.replica = false) (h : dbPrepare r junk db w = some (db', .error err)) :
    call argv (crdtCommand (dbTable r junk rargv effect) w argv) s c =
      (broadcastRargv { s with db := some db' } c.rargv, c) := by
  have hrun : crdtCommand (dbTable r junk rargv effect) w argv s c =
      ({ s with db := some db' }, c) := by
    simp [crdtCommand, hmode, hc, dbTable, hs, h, Except.toOption]
  rw [call_client hc (by rw [hrun]; exact hc), hrun]

/-- **A refused write changes nothing**, exactly where it does not add again an unknown element and
no earlier write has left its `rargv`, or there are no links: for every client, write and database
with lists that a run reaches, if the prepare phase replies with an error, then the call leaves the
server and the client as they were and sends nothing. -/
theorem refused_untouched_iff (argv : List A) (hs : s.db = some db) (hdb : db.Reached r junk)
    (hmode : s.replicationMode = true) (hc : c.replica = false)
    (hp : dbPrepare r junk db w = some (db', .error err)) :
    call argv (crdtCommand (dbTable r junk rargv effect) w argv) s c = (s, c) ↔
      ¬ ReaddsUnknown r junk db w ∧ (c.rargv = none ∨ s.replicas = []) := by
  have hdb' : { s with db := some db' } = s ↔ db' = db := by
    refine ⟨fun h => ?_, fun h => by rw [h, ← hs]⟩
    exact Option.some.inj ((congrArg Server.db h).trans hs)
  have hsame : db' = db ↔ ¬ ReaddsUnknown r junk db w := by
    refine ⟨fun h hw => ?_, (dbPrepare_error hdb hp).resolve_right⟩
    obtain ⟨db₁, err₁, hp₁, hne⟩ := dbPrepare_readd hdb hw
    cases hp.symm.trans hp₁
    exact hne h
  have hlinks : ({ s with db := some db' } : Server A (Option (Db n))).replicas = s.replicas := rfl
  rw [call_refused argv hs hmode hc hp, Prod.mk.injEq, and_iff_left rfl,
    broadcastRargv_eq_iff hlinks, hdb', hsame]

end Client

/-- Replica 0 of two after `rwflinsert l null x c 1 1 1 0`. -/
def oneListDb : Db 2 := fun k =>
  if k = ['l'] then
    ((Obj.runOf (rwflObj 2 fun _ _ _ => 0) [.op 0 (insertFront ['x'] 0) 0]).st 0).map .rwfl
  else none

theorem oneListDb_reached : oneListDb.Reached 0 fun _ _ _ _ => 0 := by
  intro k v hv
  unfold oneListDb at hv
  split at hv
  · obtain ⟨ht, hst, rfl⟩ := Option.map_eq_some_iff.mp hv
    have hok : Obj.runOk (rwflObj 2 fun _ _ _ => 0) (fun _ _ => true)
        [.op 0 (insertFront ['x'] 0) 0] (Obj.start (rwflObj 2 fun _ _ _ => 0)) = true := by
      decide +kernel
    exact ⟨_, Obj.reach_runOf (fun _ _ _ => trivial) _ hok, hst⟩
  · cases hv

/-- The same insert again is refused and changes nothing. -/
theorem refused_untouched_again :
    let T := dbTable 0 (fun _ _ _ _ => 0) (fun _ => ([] : List Sds)) fun _ db _ => db
    let w : DbCmd := .rwfl ['l'] (insertFront ['x'] 0)
    let s : Server Sds (Option (Db 2)) := ⟨some oneListDb, [[]], 2, none⟩
    (∃ db err, dbPrepare 0 (fun _ _ _ _ => 0) oneListDb w = some (db, .error err)) ∧
      call [] (crdtCommand T w []) s clientNew = (s, clientNew) := by
  have hrefused : (dbPrepare 0 (fun _ _ _ _ => 0) oneListDb
      (.rwfl ['l'] (insertFront ['x'] 0))).any (fun p => p.2.toOption.isNone) = true := by
    decide +kernel
  have hx : (rwflHash.get oneListDb ['l'] (rwflNew 0 fun _ _ _ => 0)).any
      (fun ht => (ht.table ['x']).isSome) = true := by
    decide +kernel
  obtain ⟨⟨db', res⟩, hp, hres⟩ := (Option.any_eq_true _ _).mp hrefused
  cases res with
  | ok m => cases hres
  | error err =>
    refine ⟨⟨db', err, hp⟩, (refused_untouched_iff [] rfl oneListDb_reached rfl rfl hp).mpr
      ⟨?_, .inl rfl⟩⟩
    rintro ⟨ht, hg, ho⟩
    rw [hg, Option.any_some, show ht.table ['x'] = none from ho.table_id] at hx
    cases hx

/-- On an empty database `rwflinsert l readd x c 1 1 1 0` is refused, and so is the same insert of
the Remove-Win list; but then there is a list `l`, with an element `x`. -/
theorem readd_creates_list :
    let readd : LCmd :=
      .insert 9 readdWord ['x'] ['c'] (some 1) (some 1) (some 1) (some 0) 0
    let db : Db 2 := fun _ => none
    ∃ db₁ db₂ ht x,
      dbPrepare 0 (fun _ _ _ _ => 0) db (.rwfl ['l'] readd) =
        some (db₁, .error (.reply (.notAdded ['x']))) ∧
      db₁ ['l'] = some (.rwfl ht) ∧ ht.table ['x'] = some (.ele ['x']) ∧
      dbPrepare 0 (fun _ _ _ _ => 0) db (.rl ['l'] readd) =
        some (db₂, .error (.reply (.notAdded ['x']))) ∧
      db₂ ['l'] = some (.rl x) ∧ x.ht.table ['x'] = some (.ele ['x']) :=
  ⟨_, _, _, _, rfl, rfl, rfl, rfl, rfl, rfl⟩

end CrdtRedis
