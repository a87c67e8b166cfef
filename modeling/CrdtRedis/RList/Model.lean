import CrdtRedis.Broadcast.Causal
import CrdtRedis.ListBasics
import CrdtRedis.RemoveWin

/-!
# The Remove-Win list (`t_rlist.c`)

The list has one vector clock and one buffer of operations that are not ready. An element has the
records of the Remove-Win types; an entry of `aset` (`RlAse`) holds the attributes of an insert and,
for each of them, a clock that joins the updates that were accepted. `RlSt` is a list with its
buffer and with `hist`, a ghost: the operations that were applied, oldest first, which no function
reads.

`rlPrepare` and `rlEffect` are the two phases of the commands; they have no result where the source
has undefined behaviour. The object `rlObj` then stays without a state.

* `rlExec_step`: what one operation does to a typed list, element by element (`RlStep`).
* `rlPrepare_step`: what a command sends (`RlSent`).
* `RlTrace`: the lists that a history leads to; `rlView`: the list delivers in causal order.
-/

namespace CrdtRedis

open Broadcast Linked

variable {n : ℕ}

/-! ## The model -/

/-- `rl_ase`. -/
structure RlAse (n : ℕ) where
  t : Clock n
  /-- `font_t`, `size_t` and so on. -/
  clock : Attr → Clock n
  attrs : Attrs

/-- `rl_aseNew`, and the assignments of `insertFunc` to the new entry. -/
def rlAseNew (g : InsertArgs) (t : Clock n) : RlAse n :=
  ⟨t, fun _ => t, ⟨fun p => (g.normal p).setWidth 32, g.property.setWidth 32⟩⟩

/-- An update of an attribute. -/
structure RlUpd where
  type : Sds
  value : BitVec 64
  deriving DecidableEq

/-- The body of the loop of `updateFunc`: an update that the clock of the attribute does not reject
is joined to this clock, which also gets its id. -/
def rlAseUpdate (u : RlUpd) (t : Clock n) (a : RlAse n) : RlAse n :=
  match attrOf u.type with
  | none => a
  | some p =>
    if vcCmp (a.clock p) t < 0 then
      { a with
        clock := Function.update a.clock p { vcUpdate (a.clock p) t with id := t.id }
        attrs := a.attrs.set p (u.value.setWidth 32) (u.value == 0) }
    else a

theorem rlAseUpdate_t (u : RlUpd) (t : Clock n) (a : RlAse n) : (rlAseUpdate u t a).t = a.t := by
  unfold rlAseUpdate
  split
  · rfl
  · split <;> rfl

def rlKind (n : ℕ) : RwKind n InsertArgs RlUpd (RlAse n) where
  stamp := RlAse.t
  new := rlAseNew
  upd := rlAseUpdate
  stamp_new _ _ := rfl
  stamp_upd := rlAseUpdate_t

/-- A list of the Remove-Win type. -/
abbrev RlHt (n : ℕ) := Ht n (RwSets n (RlAse n))

/-- The operations of the list (`rl_cmd`). -/
inductive RlMsg (n : ℕ) where
  | insert (prev id content : Sds) (args : InsertArgs) (pos : Leid) (t : Clock n)
  | update (id type : Sds) (value : BitVec 64) (t : Clock n)
  | rem (id : Sds) (t : Clock n)
  deriving DecidableEq

/-- The first part of every operation: the list's clock is joined with `t`, and the element is
created if it is new. -/
def rlBegin (ht : RlHt n) (id : Sds) (t : Clock n) : Option (RlHt n × Sds) :=
  ht.getCurrent.bind fun ht => (ht.setClock (vcUpdate ht.clock t)).create id

/-- `insertFunc`. -/
def rlInsertFunc (ht : RlHt n) (prev id content : Sds) (args : InsertArgs) (pos : Leid)
    (t : Clock n) : Option (RlHt n) :=
  (rlBegin ht id t).bind fun (ht, e) =>
    let preInsert := (ht.node e).body.lookup
    (if (ht.node e).oid.isNone then ht.insertNew e id content prev pos else some ht).bind fun ht =>
      let ht := ht.setBody e ((ht.node e).body.add (rlKind n) args t)
      if !preInsert && (ht.node e).body.lookup then ht.incrLen 1 else some ht

/-- `updateFunc`. -/
def rlUpdateFunc (ht : RlHt n) (id type : Sds) (value : BitVec 64) (t : Clock n) :
    Option (RlHt n) :=
  (rlBegin ht id t).map fun (ht, e) =>
    ht.setBody e ((ht.node e).body.update (rlKind n) ⟨type, value⟩ t)

/-- `removeFunc`. -/
def rlRemoveFunc (ht : RlHt n) (id : Sds) (t : Clock n) : Option (RlHt n) :=
  (rlBegin ht id t).bind fun (ht, e) =>
    let preRmv := (ht.node e).body.lookup
    let ht := ht.setBody e ((ht.node e).body.remove (rlKind n) t)
    if preRmv && !(ht.node e).body.lookup then ht.incrLen (-1) else some ht

/-- The switch of `notifyLoop`, and the same calls in the effect phases. -/
def rlExec (ht : RlHt n) : RlMsg n → Option (RlHt n)
  | .insert prev id content args pos t => rlInsertFunc ht prev id content args pos t
  | .update id type value t => rlUpdateFunc ht id type value t
  | .rem id t => rlRemoveFunc ht id t

def RlMsg.id : RlMsg n → Sds
  | .insert _ id .. | .update id .. | .rem id _ => id

def RlMsg.t : RlMsg n → Clock n
  | .insert _ _ _ _ _ t | .update _ _ _ t | .rem _ t => t

/-- The identifier of an operation. -/
def RlMsg.posId : RlMsg n → Option Leid
  | .insert _ _ _ _ pos _ => some pos
  | .update .. | .rem .. => none

/-- A list, its unready operations and those applied. -/
structure RlSt (n : ℕ) where
  ht : RlHt n
  ops : List (RlMsg n)
  hist : List (RlMsg n)

/-- One operation, and the record of it. -/
def RlSt.exec (x : RlSt n) (m : RlMsg n) : Option (RlSt n) :=
  (rlExec x.ht m).map fun ht => { x with ht := ht, hist := x.hist ++ [m] }

def rlReady (x : Option (RlSt n)) (m : RlMsg n) : Bool :=
  x.any fun x => vcCausallyReady x.ht.clock m.t

/-- `notifyLoop`, after `k` rounds. -/
def rlNotify (k : ℕ) (x : RlSt n) : Option (RlSt n) :=
  (x.ht.getOps.bind Ht.getCurrent).bind fun ht =>
    let p := drain rlReady (fun x m => x.bind (RlSt.exec · m)) k (some { x with ht := ht }) x.ops
    p.1.map fun y => { y with ops := p.2 }

/-- The effect phases of `rlinsertCommand`, `rlupdateCommand` and `rlremCommand`. -/
def rlEffect (x : RlSt n) (m : RlMsg n) : Option (RlSt n) :=
  x.ht.getCurrent.bind fun ht =>
    if vcCausallyReady ht.clock m.t then
      (RlSt.exec { x with ht := ht } m).bind (rlNotify x.ops.length)
    else ht.getOps.map fun ht => { x with ht := ht, ops := x.ops ++ [m] }

/-- An accepted command gets the list's next timestamp. -/
def rlStamped (ht : RlHt n) (f : Clock n → RlMsg n) :
    Option (RlHt n × Except ReplyErr (RlMsg n)) :=
  ht.getCurrent.map fun ht => (ht, .ok (f (vcNow ht.clock)))

/-- The check of the prepare phases of `rlupdateCommand` and `rlremCommand`. -/
def rlWithEle (ht : RlHt n) (id : Sds) (f : Clock n → RlMsg n) :
    Option (RlHt n × Except ReplyErr (RlMsg n)) :=
  (ht.find id).bind fun
    | none => some (ht, .error .eleNexist)
    | some e =>
      if (ht.node e).body.lookup then rlStamped ht f else some (ht, .error .eleNexist)

/-- The prepare phases. -/
def rlPrepare (ht : RlHt n) : LCmd → Option (RlHt n × Except ReplyErr (RlMsg n))
  | .insert argc prev id content font size color property rand =>
    match checkArgc 9 argc, insertArgs font size color property with
    | .error err, _ => some (ht, .error err)
    | _, .error err => some (ht, .error err)
    | _, .ok args =>
      (ht.prepareInsert RwSets.lookup (fun c => c) prev id rand).bind fun
        | (ht, .error err) => some (ht, .error err)
        | (ht, .ok (prev, _, pos)) => rlStamped ht (.insert prev id content args pos)
  | .update argc id type value =>
    match checkArgc 5 argc, checkArg .notInteger value with
    | .error err, _ => some (ht, .error err)
    | _, .error err => some (ht, .error err)
    -- `updateFunc` puts the type in lower case in place, before `call` broadcasts it.
    | _, .ok value => rlWithEle ht id (.update id (sdstolower type) value)
  | .rem argc id =>
    match checkArgc 3 argc with
    | .error err => some (ht, .error err)
    | .ok _ => rlWithEle ht id (.rem id)

/-- The list as a replicated object. -/
def rlObj (n : ℕ) : Obj (Fin n) (Option (RlSt n)) LCmd (RlMsg n) where
  init r := some ⟨.new r fun _ => .new, [], []⟩
  prepare _ s o :=
    match s.bind fun x => (rlPrepare x.ht o).map fun p => ({ x with ht := p.1 }, p.2) with
    | none => (none, none)
    | some (x, res) => (some x, res.toOption)
  effect _ s m := s.bind fun x => rlEffect x m

/-! ## What an operation does -/

/-- The names that the list's table has for itself. -/
def rlNames : List Sds := [headKey, lengthKey, currentKey, opsKey]

/-- An operation that names none of the table's own names, with an identifier that the decoder's
buffer holds. -/
def RlMsg.Ok : RlMsg n → Prop
  | .insert prev id _ _ pos _ => prev ∉ rlNames ∧ id ∉ rlNames ∧ pos.length ≤ 1024
  | .update id .. | .rem id _ => id ∉ rlNames

/-- The operation on the records of its element. -/
def RlMsg.toRw : RlMsg n → RwMsg n InsertArgs RlUpd
  | .insert _ _ _ args _ t => .add args t
  | .update _ type value t => .upd ⟨type, value⟩ t
  | .rem _ t => .rem t

@[simp] theorem RlMsg.toRw_t (m : RlMsg n) : m.toRw.t = m.t := by cases m <;> rfl

theorem RlMsg.Ok.id {m : RlMsg n} (h : m.Ok) : m.id ∉ rlNames := by
  cases m with
  | insert prev id content args pos t => exact h.2.1
  | update id type value t => exact h
  | rem id t => exact h

open Ht

/-- After the first part of operation on `id` with timestamp `t`. -/
structure RlBegun (ht ht₁ : RlHt n) (id : Sds) (t : Clock n) : Prop where
  typed : Typed rlNames ht₁
  same : SameList ht ht₁
  alloc : id ∈ ht₁.alloc
  clock : ht₁.clock = vcUpdate ht.clock t

theorem rlBegin_spec {ht : RlHt n} {id : Sds} (h : Typed rlNames ht) (hid : id ∉ rlNames)
    (t : Clock n) : ∃ ht₁, rlBegin ht id t = some (ht₁, id) ∧ RlBegun ht ht₁ id t := by
  have h₁ := h.withClock.setClock (vcUpdate ht.clock t)
  refine ⟨_, ?_, h₁.withEle hid, ?_, (h₁.mem_withEle hid).mpr (.inl rfl), by simp⟩
  · simp [rlBegin, h.getCurrent_eq, h₁.create_eq hid]
  · exact ((SameList.withClock ht).trans (.setClock _ _)).trans (.withEle h₁ hid)

/-- `1` if the element is in the list. -/
def RwSets.count {A : Type} (s : RwSets n A) : ℤ := if s.lookup then 1 else 0

/-- What an operation does to a list: to the element it names and to nothing else, except that a
first insert also gives the element a place. -/
structure RlStep (ht ht' : RlHt n) (m : RlMsg n) : Prop where
  typed : Typed rlNames ht'
  sound : Sound ht'
  body : ∀ k, (ht'.node k).body =
    if k = m.id then (ht.node k).body.exec (rlKind n) m.toRw else (ht.node k).body
  len : ht'.lenD = ht.lenD +
    (((ht.node m.id).body.exec (rlKind n) m.toRw).count - (ht.node m.id).body.count)
  clock : ht'.clock = vcUpdate ht.clock m.t
  place : match m with
    | .insert prev id content _ pos _ =>
      ((ht.node id).oid.isSome → Kept ht ht') ∧
      ((ht.node id).oid = none → Added ht ht' prev id content pos)
    | .update .. | .rem .. => Kept ht ht'

/-- An operation that gives no element a place. -/
theorem RlBegun.step {ht ht₁ ht' : RlHt n} {m : RlMsg n} (h : RlBegun ht ht₁ m.id m.t)
    (hs : Sound ht) (ht'' : Typed rlNames ht')
    (hb : BodyStep ht₁ ht' m.id ((ht.node m.id).body.exec (rlKind n) m.toRw)
      (((ht.node m.id).body.exec (rlKind n) m.toRw).count - (ht.node m.id).body.count))
    (hm : match m with
      | .insert _ id .. => (ht.node id).oid.isSome
      | .update .. | .rem .. => True) : RlStep ht ht' m := by
  have hkept := h.same.kept.trans hb.kept
  refine ⟨ht'', hkept.sound hs, fun k => ?_, ?_, by rw [hb.clock, h.clock], ?_⟩
  · rw [hb.body, h.same.node]
    split
    · rename_i hk; rw [hk]
    · rfl
  · rw [hb.len, h.same.len]
  · cases m with
    | insert prev id content args pos t => exact ⟨fun _ => hkept, fun hn => by simp [hn] at hm⟩
    | update id type value t => exact hkept
    | rem id t => exact hkept

/-- The last part of an insert and of a remove: the new records, and the length if the membership
changes. -/
theorem setBody_incrLen {ht : RlHt n} (h : Typed rlNames ht) (e : Sds) (y : RwSets n (RlAse n))
    {b : Bool} {d : ℤ} (hd : (if b then d else 0) = y.count - (ht.node e).body.count) :
    ∃ ht', (if b then (ht.setBody e y).incrLen d else some (ht.setBody e y)) = some ht' ∧
      Typed rlNames ht' ∧ BodyStep ht ht' e y (y.count - (ht.node e).body.count) := by
  rw [← hd]
  cases b with
  | false => exact ⟨_, rfl, h.setBody y, .setBody y⟩
  | true =>
    refine ⟨_, (h.setBody y).incrLen_eq d, (h.setBody y).setLen _, ?_⟩
    have hb : BodyStep ht (ht.setBody e y) e y 0 := .setBody y
    simpa using hb.setLen (v := d)

theorem count_add (s : RwSets n (RlAse n)) (args : InsertArgs) (t : Clock n) :
    (if !s.lookup && (s.add (rlKind n) args t).lookup then 1 else 0) =
      (s.add (rlKind n) args t).count - s.count := by
  unfold RwSets.count
  cases hl : s.lookup with
  | false => simp
  | true => simp [s.lookup_add args t hl]

theorem count_remove (s : RwSets n (RlAse n)) (t : Clock n) :
    (if s.lookup && !(s.remove (rlKind n) t).lookup then -1 else 0) =
      (s.remove (rlKind n) t).count - s.count := by
  unfold RwSets.count
  cases hl : s.lookup <;> simp [s.lookup_remove]

theorem rlInsertFunc_step {ht : RlHt n} (h : Typed rlNames ht) (hs : Sound ht)
    {prev id content : Sds} (args : InsertArgs) {pos : Leid} (t : Clock n) (hp : prev ∉ rlNames)
    (hid : id ∉ rlNames) (hlen : pos.length ≤ 1024) :
    ∃ ht', rlInsertFunc ht prev id content args pos t = some ht' ∧
      RlStep ht ht' (.insert prev id content args pos t) := by
  obtain ⟨ht₁, hb, h₁⟩ := rlBegin_spec h hid t
  have hn : ht₁.node = ht.node := h₁.same.node
  cases hoid : (ht.node id).oid with
  | some o =>
    obtain ⟨ht', hi, ht'', hbs⟩ := setBody_incrLen h₁.typed id _ (count_add _ args t)
    refine ⟨ht', ?_, RlBegun.step h₁ hs ht'' (hn ▸ hbs) (by simp [hoid])⟩
    simpa [rlInsertFunc, hb, hn, hoid, setBody_body] using hi
  | none =>
    have hs₁ := h₁.same.kept.sound hs
    have hpos : (ht₁.node id).posId = none := by
      simpa [hn, hoid] using (hs.oid id).symm
    obtain ⟨ht₂, hins, ht₂', hs₂, hadd, hl⟩ :=
      insertNew_spec id content h₁.typed hs₁ hp hpos h₁.alloc hlen
    have hbody : (ht₂.node id).body = (ht.node id).body := by rw [hadd.body, hn]
    obtain ⟨ht', hi, ht'', hbs⟩ := setBody_incrLen ht₂' id _ (count_add _ args t)
    refine ⟨ht', ?_, ht'', hbs.kept.sound hs₂, fun k => ?_, ?_, ?_, by simp [hoid], fun _ => ?_⟩
    · simpa [rlInsertFunc, hb, hn, hoid, hins, setBody_body, hbody] using hi
    · rw [hbs.body, hbody, hadd.body, hn]
      by_cases hk : k = id
      · simp [hk, RlMsg.id, RlMsg.toRw, RwSets.exec]
      · simp [hk, RlMsg.id]
    · rw [hbs.len, hadd.len, h₁.same.len, hbody]; rfl
    · rw [hbs.clock, hadd.clock, h₁.clock]; rfl
    · exact (Added.congr_left ⟨hadd.oid, hadd.posId, hadd.content, hl⟩ h₁.same.kept).congr_right
        hbs.kept

theorem rlUpdateFunc_step {ht : RlHt n} (h : Typed rlNames ht) (hs : Sound ht) {id : Sds}
    (type : Sds) (value : BitVec 64) (t : Clock n) (hid : id ∉ rlNames) :
    ∃ ht', rlUpdateFunc ht id type value t = some ht' ∧
      RlStep ht ht' (.update id type value t) := by
  obtain ⟨ht₁, hb, h₁⟩ := rlBegin_spec h hid t
  have hn : ht₁.node = ht.node := h₁.same.node
  refine ⟨_, by simp [rlUpdateFunc, hb]; rfl,
    RlBegun.step h₁ hs (h₁.typed.setBody _) ?_ trivial⟩
  have hc : ((ht.node id).body.update (rlKind n) ⟨type, value⟩ t).count =
      (ht.node id).body.count := by
    simp [RwSets.count, RwSets.lookup_update]
  have hbs : BodyStep ht₁ (ht₁.setBody id _) id _ 0 :=
    .setBody ((ht₁.node id).body.update (rlKind n) ⟨type, value⟩ t)
  rw [hn] at hbs ⊢
  rw [show (0 : ℤ) = _ - _ from (sub_eq_zero.mpr hc).symm] at hbs
  exact hbs

theorem rlRemoveFunc_step {ht : RlHt n} (h : Typed rlNames ht) (hs : Sound ht) {id : Sds}
    (t : Clock n) (hid : id ∉ rlNames) :
    ∃ ht', rlRemoveFunc ht id t = some ht' ∧ RlStep ht ht' (.rem id t) := by
  obtain ⟨ht₁, hb, h₁⟩ := rlBegin_spec h hid t
  obtain ⟨ht', hi, ht'', hbs⟩ := setBody_incrLen h₁.typed id _ (count_remove _ t)
  refine ⟨ht', ?_, RlBegun.step h₁ hs ht'' (h₁.same.node ▸ hbs) trivial⟩
  simpa [rlRemoveFunc, hb, setBody_body] using hi

/-- **What an operation does.** -/
theorem rlExec_step {ht : RlHt n} {m : RlMsg n} (h : Typed rlNames ht) (hs : Sound ht)
    (hm : m.Ok) : ∃ ht', rlExec ht m = some ht' ∧ RlStep ht ht' m := by
  cases m with
  | insert prev id content args pos t =>
    exact rlInsertFunc_step h hs args t hm.1 hm.2.1 hm.2.2
  | update id type value t => exact rlUpdateFunc_step h hs type value t hm
  | rem id t => exact rlRemoveFunc_step h hs t hm

/-! ## What a command sends -/

/-- What an accepted command sends. -/
inductive RlSent (ht ht' : RlHt n) : LCmd → RlMsg n → Prop
  | insert {argc : ℕ} {prev prev' id content : Sds} {font size color property : Option (BitVec 64)}
    {rand : ℕ} {args : InsertArgs} {pos : Leid}
    (hargs : insertArgs font size color property = .ok args)
    (hprev : PrevSent RwSets.lookup ht prev prev')
    (hpos : PosSent RwSets.lookup (fun c => c) ht ht' (ht.node prev).posId (ht.rightOf prev) id rand
      prev' pos) :
    RlSent ht ht' (.insert argc prev id content font size color property rand)
      (.insert prev' id content args pos (vcNow ht.clock))
  | update {argc : ℕ} {id type : Sds} {value : BitVec 64} (hex : (ht.node id).body.lookup) :
    RlSent ht ht' (.update argc id type (some value))
      (.update id (sdstolower type) value (vcNow ht.clock))
  | rem {argc : ℕ} {id : Sds} (hex : (ht.node id).body.lookup) :
    RlSent ht ht' (.rem argc id) (.rem id (vcNow ht.clock))

theorem RlSent.t {ht ht' : RlHt n} {o : LCmd} {m : RlMsg n} (h : RlSent ht ht' o m) :
    m.t = vcNow ht.clock := by
  cases h <;> rfl

/-- A prepare phase that leaves the list as it was and replies with an error or sends a message
with `Q`. -/
def RlPrepared (ht : RlHt n) (Q : RlHt n → RlMsg n → Prop)
    (out : Option (RlHt n × Except ReplyErr (RlMsg n))) : Prop :=
  ∃ ht' res, out = some (ht', res) ∧ Typed rlNames ht' ∧ SameList ht ht' ∧ ht'.clock = ht.clock ∧
    ((∃ err, res = .error err) ∨ ∃ m, res = .ok m ∧ Q ht' m)

theorem RlPrepared.error {ht : RlHt n} {Q : RlHt n → RlMsg n → Prop} (h : Typed rlNames ht)
    (err : ReplyErr) : RlPrepared ht Q (some (ht, .error err)) :=
  ⟨ht, .error err, rfl, h, .refl ht, rfl, .inl ⟨err, rfl⟩⟩

theorem rlStamped_spec {ht : RlHt n} {Q : RlHt n → RlMsg n → Prop} (h : Typed rlNames ht)
    {f : Clock n → RlMsg n} (hQ : Q ht.withClock (f (vcNow ht.clock))) :
    RlPrepared ht Q (rlStamped ht f) :=
  ⟨_, _, by rw [rlStamped, h.getCurrent_eq]; rfl, h.withClock, .withClock ht, rfl,
    .inr ⟨_, rfl, hQ⟩⟩

theorem rlWithEle_spec {ht : RlHt n} {Q : RlHt n → RlMsg n → Prop} (h : Typed rlNames ht)
    {id : Sds} (hid : id ∉ rlNames) {f : Clock n → RlMsg n}
    (hQ : (ht.node id).body.lookup → Q ht.withClock (f (vcNow ht.clock))) :
    RlPrepared ht Q (rlWithEle ht id f) := by
  unfold rlWithEle
  rw [h.find_eq hid]
  by_cases ha : id ∈ ht.alloc
  · simp only [if_pos ha, Option.bind_some]
    split
    · rename_i hex
      exact rlStamped_spec h (hQ hex)
    · exact .error h _
  · simpa only [if_neg ha, Option.bind_some] using .error h _

/-- **What the prepare phase does**: it changes no element, and replies with an error or sends a
message. -/
theorem rlPrepare_step {ht : RlHt n} {o : LCmd} (h : Typed rlNames ht) (hs : Sound ht)
    (ho : ∀ k ∈ o.names, k ∉ rlNames) :
    RlPrepared ht (fun ht' m => RlSent ht ht' o m) (rlPrepare ht o) := by
  cases o with
  | insert argc prev id content font size color property rand =>
    simp only [LCmd.names, List.mem_cons, List.not_mem_nil, or_false, forall_eq_or_imp,
      forall_eq] at ho
    simp only [rlPrepare]
    split
    · exact .error h _
    · exact .error h _
    · rename_i args hargs _
      obtain ⟨ht₁, res, hr, h₁, hsame, hres⟩ := prepareInsert_spec
        (RwSets.lookup (A := RlAse n)) (fun c => c) rand h hs ho.1 ho.2
      rw [hr, Option.bind_some]
      rcases hres with ⟨err, rfl, hc⟩ | ⟨prev', pos, rfl, hprev, hpos⟩
      · exact ⟨ht₁, _, rfl, h₁, hsame, hc, .inl ⟨err, rfl⟩⟩
      · have hc : ht₁.clock = ht.clock := hpos.sent.elim (·.2.2.1) (·.2.2)
        have hQ : RlSent ht ht₁.withClock
            (.insert argc prev id content font size color property rand)
            (.insert prev' id content args pos (vcNow ht₁.clock)) :=
          hc ▸ .insert hargs hprev ⟨hpos.absent, hpos.sent⟩
        obtain ⟨ht', res, hr', h', hsame', hc', hres⟩ := rlStamped_spec
          (Q := fun ht' m => RlSent ht ht' _ m) (f := RlMsg.insert prev' id content args pos) h₁ hQ
        exact ⟨ht', res, hr', h', hsame.trans hsame', hc'.trans hc, hres⟩
  | update argc id type value =>
    simp only [rlPrepare]
    split
    · exact .error h _
    · exact .error h _
    · rename_i v hv _
      obtain rfl : value = some v := checkArg_ok hv
      exact rlWithEle_spec h (ho id (by simp [LCmd.names])) .update
  | rem argc id =>
    simp only [rlPrepare]
    split
    · exact .error h _
    · exact rlWithEle_spec h (ho id (by simp [LCmd.names])) .rem

/-! ## Histories -/

/-- The lists that a history leads to. -/
inductive RlTrace (r : Fin n) : RlHt n → List (RlMsg n) → Prop
  | init : RlTrace r (.new r fun _ => .new) []
  | same {ht ht' : RlHt n} {hist : List (RlMsg n)} (h : RlTrace r ht hist)
    (ht'' : Typed rlNames ht') (hs : SameList ht ht') (hc : ht'.clock = ht.clock) :
    RlTrace r ht' hist
  | exec {ht ht' : RlHt n} {hist : List (RlMsg n)} {m : RlMsg n} (h : RlTrace r ht hist)
    (hs : RlStep ht ht' m) : RlTrace r ht' (hist ++ [m])

namespace RlTrace

variable {r : Fin n} {ht : RlHt n} {hist : List (RlMsg n)}

theorem typed (h : RlTrace r ht hist) : Typed rlNames ht := by
  cases h with
  | init => exact .new (by decide)
  | same _ ht'' _ _ => exact ht''
  | exec _ hs => exact hs.typed

theorem sound (h : RlTrace r ht hist) : Sound ht := by
  induction h with
  | init => exact .new
  | same _ _ hs _ ih => exact hs.kept.sound ih
  | exec _ hs _ => exact hs.sound

/-- The clock has the replica's id. -/
theorem clock_id (h : RlTrace r ht hist) : ht.clock.id = r := by
  induction h with
  | init => rfl
  | same _ _ _ hc ih => rw [hc, ih]
  | exec _ hs ih => rw [hs.clock, vcUpdate_id, ih]

theorem withClock (h : RlTrace r ht hist) : RlTrace r ht.withClock hist :=
  h.same h.typed.withClock (.withClock ht) rfl

theorem withOps (h : RlTrace r ht hist) : RlTrace r ht.withOps hist :=
  h.same (h.typed.withOps (by decide)) (.withOps ht) rfl

end RlTrace

/-! ## The list delivers in causal order -/

/-- The stamp of an operation is its vector clock. -/
def rlStamp (n : ℕ) : Stamp n (RlMsg n) where
  o m := m.t.id
  t m := m.t.vector

/-- What a replica has applied. -/
def rlApp : Option (RlSt n) → Applied n (RlMsg n)
  | some x => ⟨x.ht.clock.vector, x.hist⟩
  | none => ⟨0, []⟩

/-- A list that its history leads to. -/
def RlRun (r : Fin n) (s : Option (RlSt n)) : Prop := ∃ x, s = some x ∧ RlTrace r x.ht x.hist

/-- A list that its history leads to, with a buffer of operations that can be applied. -/
def RlInv (r : Fin n) (s : Option (RlSt n)) : Prop :=
  ∃ x, s = some x ∧ RlTrace r x.ht x.hist ∧ ∀ m ∈ x.ops, m.Ok

section

variable {r : Fin n} {x : RlSt n} {m : RlMsg n}

theorem rlReady_eq (s : Option (RlSt n)) (m : RlMsg n) (h : RlRun r s) :
    (rlStamp n).ready (rlApp s) m = rlReady s m := by
  obtain ⟨x, rfl, -⟩ := h
  rfl

/-- An operation that can be applied is. -/
theorem RlSt.exec_some (h : RlTrace r x.ht x.hist) (hm : m.Ok) :
    ∃ y, x.exec m = some y ∧ RlTrace r y.ht y.hist ∧ y.ops = x.ops ∧
      rlApp (some y) = (rlStamp n).exec (rlApp (some x)) m := by
  obtain ⟨ht', he, hs⟩ := rlExec_step h.typed h.sound hm
  refine ⟨⟨ht', x.ops, x.hist ++ [m]⟩, by simp [RlSt.exec, he], h.exec hs, rfl, ?_⟩
  simp only [rlApp, Stamp.exec, hs.clock, vcUpdate_vector]
  rfl

/-- `notifyLoop` is the loop of causal delivery. -/
theorem rlNotify_some (k : ℕ) (h : RlTrace r x.ht x.hist) (hops : ∀ m ∈ x.ops, m.Ok) :
    ∃ y, rlNotify k x = some y ∧ RlTrace r y.ht y.hist ∧ (∀ m ∈ y.ops, m.Ok) ∧
      drain (rlStamp n).ready (rlStamp n).exec k (rlApp (some x)) x.ops =
        (rlApp (some y), y.ops) := by
  have h₁ : RlTrace r x.ht.withOps.withClock x.hist := h.withOps.withClock
  obtain ⟨hd, y, hy, hy'⟩ := drain_map rlReady (fun x m => x.bind (RlSt.exec · m))
    (P := RlRun r) (Q := RlMsg.Ok) rlApp rlReady_eq
    (fun s m hs hm => by
      obtain ⟨z, rfl, hz⟩ := hs
      obtain ⟨y, hy, hy', -, happ⟩ := RlSt.exec_some hz hm
      exact ⟨by rw [Option.bind_some, hy, happ], y, hy, hy'⟩)
    k (some { x with ht := x.ht.withOps.withClock }) x.ops ⟨_, rfl, h₁⟩ hops
  have hsub := drain_subset rlReady (fun x m => x.bind (RlSt.exec · m)) k
    (some { x with ht := x.ht.withOps.withClock }) x.ops
  generalize hp : drain rlReady (fun x m => x.bind (RlSt.exec · m)) k
    (some { x with ht := x.ht.withOps.withClock }) x.ops = p at hd hy hsub
  have hc : (x.ht.getOps.bind getCurrent) = some x.ht.withOps.withClock := by
    rw [h.typed.getOps_eq (by decide), Option.bind_some,
      (h.typed.withOps (by decide)).getCurrent_eq]
  refine ⟨{ y with ops := p.2 }, ?_, hy', fun m hm => hops m (hsub hm), ?_⟩
  · simp only [rlNotify, hc, Option.bind_some, hp, hy, Option.map_some]
  · rw [hy] at hd
    exact hd

/-- **What an effect phase does** is what causal delivery does. -/
theorem rlEffect_some (h : RlTrace r x.ht x.hist) (hops : ∀ m ∈ x.ops, m.Ok) (hm : m.Ok) :
    ∃ y, rlEffect x m = some y ∧ RlTrace r y.ht y.hist ∧ (∀ m ∈ y.ops, m.Ok) ∧
      (⟨rlApp (some y), y.ops⟩ : CausalSt n (RlMsg n)) =
        (causalObj (rlStamp n)).effect r ⟨rlApp (some x), x.ops⟩ m := by
  have hready : (rlStamp n).ready (rlApp (some x)) m =
    vcCausallyReady x.ht.withClock.clock m.t := rfl
  simp only [rlEffect, h.typed.getCurrent_eq, Option.bind_some, causalObj, hready]
  by_cases hr : vcCausallyReady x.ht.withClock.clock m.t = true
  · obtain ⟨z, hz, hz', hzo, happ⟩ := RlSt.exec_some (x := { x with ht := x.ht.withClock })
      h.withClock hm
    obtain ⟨y, hy, hy', hyo, hd⟩ := rlNotify_some x.ops.length hz' (by rw [hzo]; exact hops)
    refine ⟨y, by rw [if_pos hr, hz, Option.bind_some, hy], hy', hyo, ?_⟩
    rw [hzo, happ] at hd
    rw [if_pos hr]
    exact (congrArg (fun p => (⟨p.1, p.2⟩ : CausalSt n (RlMsg n))) hd).symm
  · refine ⟨{ x with ht := x.ht.withClock.withOps, ops := x.ops ++ [m] }, ?_,
      h.withClock.withOps, fun m' hm' => ?_, by rw [if_neg hr]; rfl⟩
    · rw [if_neg hr, h.typed.withClock.getOps_eq (by decide)]; rfl
    · rcases List.mem_append.mp hm' with hm' | hm'
      · exact hops m' hm'
      · rw [List.mem_singleton.mp hm']; exact hm

end

/-- A command that names none of the table's own names, and that finds room if it is accepted. -/
def RlOkOp (r : Fin n) (s : Option (RlSt n)) (o : LCmd) : Prop :=
  (∀ k ∈ o.names, k ∉ rlNames) ∧
  (((rlObj n).prepare r s o).2.isSome → ∀ x, s = some x → o.FindsRoom x.ht)

section

variable {r : Fin n} {s s₁ : Option (RlSt n)} {o : LCmd}

/-- A command on a typed list. -/
theorem rlObj_prepare_cases {res : Option (RlMsg n)} (hi : RlInv r s)
    (ho : ∀ k ∈ o.names, k ∉ rlNames) (hp : (rlObj n).prepare r s o = (s₁, res)) :
    ∃ x ht', s = some x ∧ s₁ = some { x with ht := ht' } ∧ RlTrace r x.ht x.hist ∧
      RlTrace r ht' x.hist ∧ (∀ m ∈ x.ops, m.Ok) ∧ SameList x.ht ht' ∧ ht'.clock = x.ht.clock ∧
      (res = none ∨ ∃ m, res = some m ∧ RlSent x.ht ht' o m) := by
  obtain ⟨x, rfl, h, hops⟩ := hi
  obtain ⟨ht', res', hr, h', hsame, hc, hres⟩ := rlPrepare_step h.typed h.sound ho
  simp only [rlObj, Option.bind_some, hr, Option.map_some, Prod.mk.injEq] at hp
  obtain ⟨rfl, rfl⟩ := hp
  refine ⟨x, ht', rfl, rfl, h, h.same h' hsame hc, hops, hsame, hc, ?_⟩
  rcases hres with ⟨err, rfl⟩ | ⟨m, rfl, hsent⟩
  · exact .inl rfl
  · exact .inr ⟨m, rfl, hsent⟩

theorem strEq_notMem_rlNames {k : Sds} (h : strEq k nullWord ∨ strEq k readdWord) :
    k ∉ rlNames := by
  intro hk
  simp only [rlNames, List.mem_cons, List.not_mem_nil, or_false] at hk
  rcases hk with rfl | rfl | rfl | rfl <;> exact absurd h (by decide)

/-- A message sent by a command that names none of the table's own names and finds room. -/
theorem RlSent.ok {ht ht' : RlHt n} {m : RlMsg n} (h : RlSent ht ht' o m) (hs : Sound ht)
    (ho : ∀ k ∈ o.names, k ∉ rlNames) (hroom : o.FindsRoom ht) : m.Ok := by
  cases h with
  | insert hargs hprev hsent =>
    refine ⟨?_, ho _ (by simp [LCmd.names]), (hsent.fits_iff hs).mpr hroom⟩
    rcases hprev with ⟨rfl, -⟩ | ⟨-, -, hw⟩
    · exact ho _ (by simp [LCmd.names])
    · exact strEq_notMem_rlNames hw
  | update _ => exact ho _ (by simp [LCmd.names])
  | rem _ => exact ho _ (by simp [LCmd.names])

/-- The identifier that is sent fits the decoder's buffer exactly if the command finds room. -/
theorem RlSent.fits_iff {ht ht' : RlHt n} {m : RlMsg n} (h : RlSent ht ht' o m) (hs : Sound ht) :
    (∀ pos ∈ m.posId, pos.length ≤ 1024) ↔ o.FindsRoom ht := by
  cases h with
  | insert hargs hprev hsent => simpa [RlMsg.posId, LCmd.FindsRoom] using hsent.fits_iff hs
  | update _ => simp [RlMsg.posId, LCmd.FindsRoom]
  | rem _ => simp [RlMsg.posId, LCmd.FindsRoom]

end

/-- The list as causal delivery. -/
def rlView (n : ℕ) : View (rlObj n) (causalObj (rlStamp n)) where
  st _ s := ⟨rlApp s, (s.map RlSt.ops).getD []⟩
  msg := some
  inv := RlInv
  okOp := RlOkOp
  okMsg := RlMsg.Ok
  init _ := rfl
  inv_init _ := ⟨_, rfl, .init, by simp⟩
  inv_prepare hi ho hp := by
    obtain ⟨x, ht', rfl, rfl, h, h', hops, -, -, hm⟩ := rlObj_prepare_cases hi ho.1 hp
    refine ⟨⟨_, rfl, h', hops⟩, fun m' hm' => ?_⟩
    rcases hm with rfl | ⟨m, rfl, hsent⟩
    · cases hm'
    · obtain rfl : m = m' := by simpa using hm'
      exact hsent.ok h.sound ho.1 (ho.2 (by rw [hp]; rfl) x rfl)
  inv_effect hi hm := by
    obtain ⟨x, rfl, h, hops⟩ := hi
    obtain ⟨y, hy, hy', hyo, -⟩ := rlEffect_some h hops hm
    exact ⟨y, hy, hy', hyo⟩
  reject hi ho hp := by
    obtain ⟨x, ht', rfl, rfl, -, -, -, -, hc, -⟩ := rlObj_prepare_cases hi ho.1 hp
    exact .inl (by simp [rlApp, hc])
  hide _ _ _ hm := by cases hm
  accept {r s o s₁ m m'} hi ho hp hm := by
    obtain ⟨x, ht', rfl, rfl, h, -, -, -, hc, h'⟩ := rlObj_prepare_cases hi ho.1 hp
    cases hm
    rcases h' with h' | ⟨m₁, h', hsent⟩
    · cases h'
    · obtain rfl := Option.some.inj h'
      refine ⟨m, ?_⟩
      simp [causalObj, rlStamp, Stamp.next, rlApp, hc, hsent.t, vcNow, h.clock_id]
  effect_hide _ _ hm := by cases hm
  effect {r s m m'} hi hm hmm := by
    obtain ⟨x, rfl, h, hops⟩ := hi
    obtain ⟨y, hy, -, -, heq⟩ := rlEffect_some h hops hm
    cases hmm
    simp only [rlObj, Option.bind_some, hy]
    exact heq

/-- Runs of commands that name none of the table's own names and find room in the decoder's buffer
for the identifiers they make, and every order of reception. -/
def rlGuard (s : Sys (Fin n) (Option (RlSt n)) (RlMsg n)) : Ev (Fin n) LCmd → Prop
  | .op r o _ => RlOkOp r (s.st r) o
  | .recv _ _ => True

/-- A test for `rlGuard`. -/
def rlGuardOk (s : Sys (Fin n) (Option (RlSt n)) (RlMsg n)) : Ev (Fin n) LCmd → Bool
  | .op r o _ => o.avoids rlNames && (s.st r).all fun x => o.findsRoomOk x.ht
  | .recv _ _ => true

theorem rlGuard_of_ok (s : Sys (Fin n) (Option (RlSt n)) (RlMsg n)) (e : Ev (Fin n) LCmd)
    (h : rlGuardOk s e = true) : rlGuard s e := by
  cases e with
  | op r o i =>
    simp only [rlGuardOk, Bool.and_eq_true] at h
    exact ⟨LCmd.avoids_iff.mp h.1, fun _ x hx =>
      LCmd.findsRoom_of_ok ((Option.all_eq_true _ _).mp h.2 x hx)⟩
  | recv r i => trivial

/-- What causal delivery sees of a run. -/
def rlCausal (s : Sys (Fin n) (Option (RlSt n)) (RlMsg n)) :
    Sys (Fin n) (CausalSt n (RlMsg n)) (RlMsg n) :=
  ⟨fun r => (rlView n).st r (s.st r), s.log, s.sent, s.recv⟩

/-- **The list delivers in causal order**, and every replica has a list that its history leads
to. -/
theorem rl_causal {s : Sys (Fin n) (Option (RlSt n)) (RlMsg n)}
    (hs : (rlObj n).Reach rlGuard s) :
    CausalInv (rlStamp n) (rlCausal s) ∧ ∀ r, RlInv r (s.st r) :=
  View.causal_inv (v := rlView n) (fun _ => rfl) (fun _ _ _ _ h => h) hs

/-- What a replica has applied, and what it buffers. -/
theorem rl_local {s : Sys (Fin n) (Option (RlSt n)) (RlMsg n)} (hs : (rlObj n).Reach rlGuard s)
    {r : Fin n} {x : RlSt n} (hx : s.st r = some x) : RlTrace r x.ht x.hist ∧
      Local (rlStamp n) r (received s r) ⟨x.ht.clock.vector, x.hist⟩ x.ops ∧
      Delivered (rlStamp n) r (broadcasts s) (received s r) x.hist x.ops := by
  obtain ⟨hc, hi⟩ := rl_causal hs
  obtain ⟨x', hx', htr, -⟩ := hi r
  obtain rfl : x' = x := by simpa [hx] using hx'.symm
  have hst : (rlCausal s).st r = ⟨⟨x'.ht.clock.vector, x'.hist⟩, x'.ops⟩ := by
    simp [rlCausal, rlView, hx, rlApp]
  have hl := hc.loc r
  have hd := hc.delivered r
  rw [hst] at hl hd
  exact ⟨htr, hl, hd⟩

end CrdtRedis
