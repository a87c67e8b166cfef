import CrdtRedis.LamportClock
import CrdtRedis.ListBasics
import CrdtRedis.RWFramework

/-!
# The RWF list (`t_rwflist.c`)

An element of the list (`Rwfle`) has the framework's header, a Lamport clock, the six attributes
and for each of them the Lamport stamp of the update that it shows. `rwflPrepare` and `rwflEffect`
are the two phases of the commands; they have no result where the source has undefined behaviour.
The object `rwflObj` then stays without a state. `junk` is what a new element has in the fields that
`rwfleNew` does not set.

* `rwflEffect_step`: what one message does to a typed list, element by element.
* `rwflPrepare_step`: what a command sends, and that the prepare phase changes no element.
-/

namespace CrdtRedis

open Broadcast Linked

variable {n : ℕ}

/-! ## The model -/

/-- `rwfle`, without the fields that both list types have. -/
@[ext] structure Rwfle (n : ℕ) where
  header : Reh n
  current : Lc
  stamp : Attr → Option Lc
  attrs : Attrs

def rwfleNew (r : Fin n) (junk : Normal → BitVec 32) : Rwfle n :=
  ⟨rehInit r, ⟨0, (r : ℕ)⟩, fun _ => none, ⟨junk, 0⟩⟩

/-- A list of the RWF type. -/
abbrev RwfHt (n : ℕ) := Ht n (Rwfle n)

inductive RwflMsg (n : ℕ) where
  | insert (prev id content : Sds) (args : InsertArgs) (pos : Leid) (t : Clock n)
  | update (id type : Sds) (value : BitVec 64) (lt : Lc) (t : Clock n)
  | rem (id : Sds) (t : Clock n)

/-- `acquired_update`. -/
def acquiredUpdate (e : Rwfle n) (type : Sds) (t : Lc) (value : BitVec 32) : Rwfle n :=
  match attrOf type with
  | none => e
  | some p =>
    if (e.stamp p).all fun s => lcCmp s t ≤ 0 then
      { e with
        stamp := Function.update e.stamp p (some t)
        attrs := e.attrs.set p value (value == 0)
        current := lcUpdate e.current t }
    else e

/-- `removeFunc`. -/
def rwflRemoveFunc (ht : RwfHt n) (e : Sds) (t : Clock n) : Option (RwfHt n) :=
  let x := (ht.node e).body
  match removeCheck x.header t with
  | (h, true) =>
    let ht := ht.setBody e
      { x with header := h, stamp := fun _ => none, current := { x.current with x := 0 } }
    if x.header.exists then ht.incrLen (-1) else some ht
  | (_, false) => some ht

/-- The add part of the effect phase of an insert. -/
def rwflAddFunc (ht : RwfHt n) (e : Sds) (args : InsertArgs) (t : Clock n) : Option (RwfHt n) :=
  let x := (ht.node e).body
  match addCheck x.header t with
  | (h, true) =>
    let attrs := Attr.all.foldl
      (fun a p => if (x.stamp p).isNone then a.give args p else a) x.attrs
    let ht := ht.setBody e { x with header := h, attrs := attrs }
    if !x.header.exists then ht.incrLen 1 else some ht
  | (_, false) => some ht

/-- The effect phases of `rwflinsertCommand`, `rwflupdateCommand` and `rwflremCommand`. -/
def rwflEffect (ht : RwfHt n) : RwflMsg n → Option (RwfHt n)
  | .insert prev id content args pos t =>
    (ht.create id).bind fun (ht, e) =>
      (rwflRemoveFunc ht e t).bind fun ht =>
        (if (ht.node e).oid.isNone then ht.insertNew e id content prev pos else some ht).bind
          fun ht => rwflAddFunc ht e args t
  | .update id type value lt t =>
    (ht.create id).bind fun (ht, e) =>
      (rwflRemoveFunc ht e t).map fun ht =>
        let x := (ht.node e).body
        match updateCheck x.header t with
        | (h, true) =>
          ht.setBody e (acquiredUpdate { x with header := h } type lt (value.setWidth 32))
        | (_, false) => ht
  | .rem id t => (ht.create id).bind fun (ht, e) => rwflRemoveFunc ht e t

/-- The prepare phases. -/
def rwflPrepare (r : Fin n) (ht : RwfHt n) :
    LCmd → Option (RwfHt n × Except ReplyErr (RwflMsg n))
  | .insert argc prev id content font size color property rand =>
    match checkArgc 9 argc, insertArgs font size color property with
    | .error err, _ => some (ht, .error err)
    | _, .error err => some (ht, .error err)
    | _, .ok args =>
      (ht.prepareInsert (fun x => x.header.exists) (vcInc · r) prev id rand).map
        fun (ht, res) => (ht, res.map fun (prev, e, pos) =>
          .insert prev id content args pos (ht.node e).body.header.current)
  | .update argc id type value =>
    match checkArgc 5 argc, checkArg .notInteger value with
    | .error err, _ => some (ht, .error err)
    | _, .error err => some (ht, .error err)
    | _, .ok value =>
      (ht.find id).map fun
        | none => (ht, .error .eleNexist)
        | some e =>
          let x := (ht.node e).body
          (ht, if x.header.exists then
            -- `acquired_update` puts the type in lower case in place, before `call` broadcasts it.
            .ok (.update id (sdstolower type) value (lcNow x.current) x.header.current)
          else .error .eleNexist)
  | .rem argc id =>
    match checkArgc 3 argc with
    | .error err => some (ht, .error err)
    | .ok _ =>
      (ht.find id).map fun
        | none => (ht, .error .eleNexist)
        | some e =>
          let x := (ht.node e).body
          (ht, if x.header.exists then .ok (.rem id (vcNow x.header.current))
          else .error .eleNexist)

/-- The list as a replicated object. -/
def rwflObj (n : ℕ) (junk : Fin n → Sds → Normal → BitVec 32) :
    Obj (Fin n) (Option (RwfHt n)) LCmd (RwflMsg n) where
  init r := some (.new r fun k => rwfleNew r (junk r k))
  prepare r s o :=
    match s.bind fun ht => rwflPrepare r ht o with
    | none => (none, none)
    | some (ht, res) => (some ht, res.toOption)
  effect _ s m := s.bind fun ht => rwflEffect ht m

/-! ## What a message does to an element -/

/-- The names that the list's table has for itself. -/
def rwflNames : List Sds := [headKey, lengthKey, currentKey]

def RwflMsg.id : RwflMsg n → Sds
  | .insert _ id .. | .update id .. | .rem id _ => id

def RwflMsg.t : RwflMsg n → Clock n
  | .insert _ _ _ _ _ t | .update _ _ _ _ t | .rem _ t => t

/-- The identifier of a message. -/
def RwflMsg.posId : RwflMsg n → Option Leid
  | .insert _ _ _ _ pos _ => some pos
  | .update .. | .rem .. => none

/-- A message that names none of the table's own names, with an identifier that the decoder's
buffer holds. -/
def RwflMsg.Ok : RwflMsg n → Prop
  | .insert prev id _ _ pos _ => prev ∉ rwflNames ∧ id ∉ rwflNames ∧ pos.length ≤ 1024
  | .update id .. | .rem id _ => id ∉ rwflNames

namespace Rwfle

/-- The element after `removeFunc`. -/
def removed (x : Rwfle n) (t : Clock n) : Rwfle n :=
  match removeCheck x.header t with
  | (h, true) =>
    { x with header := h, stamp := fun _ => none, current := { x.current with x := 0 } }
  | (_, false) => x

/-- The element after the add part of an insert. -/
def added (x : Rwfle n) (args : InsertArgs) (t : Clock n) : Rwfle n :=
  match addCheck x.header t with
  | (h, true) =>
    { x with
      header := h
      attrs := Attr.all.foldl
        (fun a p => if (x.stamp p).isNone then a.give args p else a) x.attrs }
  | (_, false) => x

/-- The element after the update part of an update. -/
def updated (x : Rwfle n) (type : Sds) (value : BitVec 64) (lt : Lc) (t : Clock n) : Rwfle n :=
  match updateCheck x.header t with
  | (h, true) => acquiredUpdate { x with header := h } type lt (value.setWidth 32)
  | (_, false) => x

/-- The element after a message on it. -/
def apply (x : Rwfle n) : RwflMsg n → Rwfle n
  | .insert _ _ _ args _ t => (x.removed t).added args t
  | .update _ type value lt t => (x.removed t).updated type value lt t
  | .rem _ t => x.removed t

/-- What `removeFunc` adds to the length. -/
def removeDelta (x : Rwfle n) (t : Clock n) : ℤ :=
  if (removeCheck x.header t).2 && x.header.exists then -1 else 0

/-- What the add part of an insert adds to the length. -/
def addDelta (x : Rwfle n) (t : Clock n) : ℤ :=
  if (addCheck x.header t).2 && !x.header.exists then 1 else 0

/-- What a message adds to the length. -/
def delta (x : Rwfle n) : RwflMsg n → ℤ
  | .insert _ _ _ _ _ t => x.removeDelta t + (x.removed t).addDelta t
  | .update _ _ _ _ t | .rem _ t => x.removeDelta t

end Rwfle

open Ht

theorem rwflRemoveFunc_spec {N : List Sds} {ht : RwfHt n} (h : Typed N ht) (e : Sds)
    (t : Clock n) : ∃ ht', rwflRemoveFunc ht e t = some ht' ∧ Typed N ht' ∧
      BodyStep ht ht' e ((ht.node e).body.removed t) ((ht.node e).body.removeDelta t) := by
  unfold rwflRemoveFunc Rwfle.removed Rwfle.removeDelta
  rcases hr : removeCheck (ht.node e).body.header t with ⟨h', b⟩
  simp only [hr]
  cases b with
  | false => exact ⟨ht, rfl, h, .refl⟩
  | true =>
    cases hx : (ht.node e).body.header.exists with
    | false => exact ⟨_, rfl, h.setBody _, .setBody _⟩
    | true =>
      exact ⟨_, (h.setBody _).incrLen_eq (-1), (h.setBody _).setLen _, (BodyStep.setBody _).setLen⟩

theorem rwflAddFunc_spec {N : List Sds} {ht : RwfHt n} (h : Typed N ht) (e : Sds)
    (args : InsertArgs) (t : Clock n) : ∃ ht', rwflAddFunc ht e args t = some ht' ∧ Typed N ht' ∧
      BodyStep ht ht' e ((ht.node e).body.added args t) ((ht.node e).body.addDelta t) := by
  unfold rwflAddFunc Rwfle.added Rwfle.addDelta
  rcases hr : addCheck (ht.node e).body.header t with ⟨h', b⟩
  simp only [hr]
  cases b with
  | false => exact ⟨ht, rfl, h, .refl⟩
  | true =>
    cases hx : (ht.node e).body.header.exists with
    | true => exact ⟨_, rfl, h.setBody _, .setBody _⟩
    | false =>
      exact ⟨_, (h.setBody _).incrLen_eq 1, (h.setBody _).setLen _, (BodyStep.setBody _).setLen⟩

/-- What a message does to a list: to the element it names and to nothing else, except that a first
insert also gives the element a place. -/
structure RwflStep (ht ht' : RwfHt n) (m : RwflMsg n) : Prop where
  typed : Typed rwflNames ht'
  sound : Sound ht'
  body : ∀ k, (ht'.node k).body =
    if k = m.id then (ht.node k).body.apply m else (ht.node k).body
  len : ht'.lenD = ht.lenD + (ht.node m.id).body.delta m
  clock : ht'.clock = ht.clock
  place : match m with
    | .insert prev id content _ pos _ =>
      ((ht.node id).oid.isSome → Kept ht ht') ∧
      ((ht.node id).oid = none → Added ht ht' prev id content pos)
    | .update .. | .rem .. => Kept ht ht'

/-- The first part of every effect phase: the element is created if it is new, and `removeFunc`
runs. -/
structure Removed (ht ht' : RwfHt n) (id : Sds) (t : Clock n) : Prop where
  typed : Typed rwflNames ht'
  kept : Kept ht ht'
  alloc : id ∈ ht'.alloc
  clock : ht'.clock = ht.clock
  len : ht'.lenD = ht.lenD + (ht.node id).body.removeDelta t
  body : ∀ k, (ht'.node k).body =
    if k = id then (ht.node k).body.removed t else (ht.node k).body

theorem withEle_remove_spec {ht : RwfHt n} {id : Sds} (h : Typed rwflNames ht)
    (hid : id ∉ rwflNames) (t : Clock n) :
    ∃ ht', rwflRemoveFunc (ht.withEle id) id t = some ht' ∧ Removed ht ht' id t := by
  have hsame := SameList.withEle h hid
  obtain ⟨ht', hr, ht'', hb⟩ := rwflRemoveFunc_spec (h.withEle hid) id t
  refine ⟨ht', hr, ht'', hsame.kept.trans hb.kept, ?_, ?_, ?_, fun k => ?_⟩
  · rw [hb.alloc]; exact (h.mem_withEle hid).mpr (.inl rfl)
  · rw [hb.clock, withEle_clock]
  · rw [hb.len, hsame.len, hsame.node]
  · rw [hb.body, hsame.node]
    split
    · rename_i hk; rw [hk]
    · rfl

/-- A step that ends with a change of the element's own fields. -/
theorem Removed.step {ht ht₁ ht' : RwfHt n} {m : RwflMsg n} {y : Rwfle n} {d : ℤ}
    (h : Removed ht ht₁ m.id m.t) (hs : Sound ht) (ht'' : Typed rwflNames ht')
    (hb : BodyStep ht₁ ht' m.id y d) (hy : y = (ht.node m.id).body.apply m)
    (hd : (ht.node m.id).body.delta m = (ht.node m.id).body.removeDelta m.t + d)
    (hm : match m with
      | .insert _ id .. => (ht.node id).oid.isSome
      | .update .. | .rem .. => True) : RwflStep ht ht' m := by
  have hkept := h.kept.trans hb.kept
  refine ⟨ht'', hkept.sound hs, fun k => ?_, ?_, ?_, ?_⟩
  · rw [hb.body, h.body]
    by_cases hk : k = m.id
    · simp [hk, hy]
    · simp [hk]
  · rw [hb.len, h.len, hd, add_assoc]
  · rw [hb.clock, h.clock]
  · cases m with
    | insert prev id content args pos t => exact ⟨fun _ => hkept, fun hn => by simp [hn] at hm⟩
    | update id type value lt t => exact hkept
    | rem id t => exact hkept

/-- **What a message does.** -/
theorem rwflEffect_step {ht : RwfHt n} {m : RwflMsg n} (h : Typed rwflNames ht) (hs : Sound ht)
    (hm : m.Ok) : ∃ ht', rwflEffect ht m = some ht' ∧ RwflStep ht ht' m := by
  cases m with
  | insert prev id content args pos t =>
    obtain ⟨hp, hid, hlen⟩ := hm
    obtain ⟨ht₁, hr, h₁⟩ := withEle_remove_spec h hid t
    have hx : (ht₁.node id).body = (ht.node id).body.removed t := by simp [h₁.body]
    cases hoid : (ht.node id).oid with
    | some o =>
      obtain ⟨ht', ha, ht'', hb⟩ := rwflAddFunc_spec h₁.typed id args t
      refine ⟨ht', by simp [rwflEffect, h.create_eq hid, hr, h₁.kept.oid, hoid, ha], ?_⟩
      rw [hx] at hb
      exact h₁.step hs ht'' hb rfl rfl (by simp [hoid])
    | none =>
      have hpos : (ht₁.node id).posId = none := by
        have := hs.oid id
        rw [h₁.kept.posId]
        simpa [hoid] using this.symm
      obtain ⟨ht₂, hi, ht₂', hs₂, hins, hl⟩ :=
        insertNew_spec id content h₁.typed (h₁.kept.sound hs) hp hpos h₁.alloc hlen
      have hadd : Added ht ht₂ prev id content pos :=
        Added.congr_left ⟨hins.oid, hins.posId, hins.content, hl⟩ h₁.kept
      obtain ⟨ht', ha, ht'', hb⟩ := rwflAddFunc_spec ht₂' id args t
      rw [hins.body, hx] at hb
      refine ⟨ht', by simp [rwflEffect, h.create_eq hid, hr, h₁.kept.oid, hoid, hi, ha], ?_⟩
      refine ⟨ht'', hb.kept.sound hs₂, fun k => ?_, ?_, ?_, by simp [hoid], fun _ => ?_⟩
      · rw [hb.body, hins.body, h₁.body]
        by_cases hk : k = id
        · simp [hk, RwflMsg.id, Rwfle.apply]
        · simp [hk, RwflMsg.id]
      · rw [hb.len, hins.len, h₁.len, add_assoc]; rfl
      · rw [hb.clock, hins.clock, h₁.clock]
      · exact hadd.congr_right hb.kept
  | update id type value lt t =>
    obtain ⟨ht₁, hr, h₁⟩ := withEle_remove_spec h hm t
    have hx : (ht₁.node id).body = (ht.node id).body.removed t := by simp [h₁.body]
    rcases hc : updateCheck (ht₁.node id).body.header t with ⟨h', b⟩
    cases b with
    | true =>
      refine ⟨_, by simp [rwflEffect, h.create_eq hm, hr, hc]; rfl,
        h₁.step hs (h₁.typed.setBody _) (.setBody _) ?_ (by simp [Rwfle.delta, RwflMsg.t])
          trivial⟩
      rw [hx] at hc ⊢
      simp [RwflMsg.id, Rwfle.apply, Rwfle.updated, hc]
    | false =>
      refine ⟨ht₁, by simp [rwflEffect, h.create_eq hm, hr, hc],
        h₁.step hs h₁.typed .refl ?_ (by simp [Rwfle.delta, RwflMsg.t]) trivial⟩
      rw [hx] at hc
      simp [RwflMsg.id, hx, Rwfle.apply, Rwfle.updated, hc]
  | rem id t =>
    obtain ⟨ht₁, hr, h₁⟩ := withEle_remove_spec h hm t
    refine ⟨ht₁, by simp [rwflEffect, h.create_eq hm, hr],
      h₁.step hs h₁.typed .refl ?_ (by simp [Rwfle.delta, RwflMsg.t]) trivial⟩
    simp [RwflMsg.id, h₁.body, Rwfle.apply]

/-! ## What a command sends -/

/-- What an accepted command sends. -/
inductive RwflSent (r : Fin n) (ht ht' : RwfHt n) : LCmd → RwflMsg n → Prop
  | insert {argc : ℕ} {prev prev' id content : Sds} {font size color property : Option (BitVec 64)}
    {rand : ℕ} {args : InsertArgs} {pos : Leid}
    (hargs : insertArgs font size color property = .ok args)
    (hprev : PrevSent (fun x => x.header.exists) ht prev prev')
    (hpos : PosSent (fun x => x.header.exists) (vcInc · r) ht ht' (ht.node prev).posId
      (ht.rightOf prev) id rand prev' pos) :
    RwflSent r ht ht' (.insert argc prev id content font size color property rand)
      (.insert prev' id content args pos (ht.node id).body.header.current)
  | update {argc : ℕ} {id type : Sds} {value : BitVec 64}
    (hex : (ht.node id).body.header.exists) (hclock : ht'.clock = ht.clock) :
    RwflSent r ht ht' (.update argc id type (some value))
      (.update id (sdstolower type) value (lcNow (ht.node id).body.current)
        (ht.node id).body.header.current)
  | rem {argc : ℕ} {id : Sds} (hex : (ht.node id).body.header.exists)
    (hclock : ht'.clock = ht.clock) :
    RwflSent r ht ht' (.rem argc id) (.rem id (vcNow (ht.node id).body.header.current))

/-- **What the prepare phase does**: it changes no element, and replies with an error or sends a
message. -/
theorem rwflPrepare_step {r : Fin n} {ht : RwfHt n} {o : LCmd} (h : Typed rwflNames ht)
    (hs : Sound ht) (ho : ∀ k ∈ o.names, k ∉ rwflNames) :
    ∃ ht' res, rwflPrepare r ht o = some (ht', res) ∧ Typed rwflNames ht' ∧ SameList ht ht' ∧
      ((∃ err, res = .error err ∧ ht'.clock = ht.clock) ∨
        ∃ m, res = .ok m ∧ RwflSent r ht ht' o m) := by
  have hno : ∀ err : ReplyErr, ∃ ht' res,
      some (ht, (.error err : Except ReplyErr (RwflMsg n))) = some (ht', res) ∧
      Typed rwflNames ht' ∧ SameList ht ht' ∧ ((∃ err, res = .error err ∧ ht'.clock = ht.clock) ∨
        ∃ m, res = .ok m ∧ RwflSent r ht ht' o m) :=
    fun err => ⟨ht, .error err, rfl, h, .refl ht, .inl ⟨err, rfl, rfl⟩⟩
  cases o with
  | insert argc prev id content font size color property rand =>
    simp only [LCmd.names, List.mem_cons, List.not_mem_nil, or_false, forall_eq_or_imp,
      forall_eq] at ho
    simp only [rwflPrepare]
    split
    · exact hno _
    · exact hno _
    · rename_i args hargs _
      obtain ⟨ht', res, hr, ht'', hsame, hres⟩ := prepareInsert_spec
        (fun x : Rwfle n => x.header.exists) (vcInc · r) rand h hs ho.1 ho.2
      rw [hr]
      refine ⟨ht', _, rfl, ht'', hsame, ?_⟩
      rcases hres with ⟨err, rfl, hc⟩ | ⟨prev', pos, rfl, hprev, hpos⟩
      · exact .inl ⟨err, rfl, hc⟩
      · refine .inr ⟨_, rfl, ?_⟩
        rw [hsame.node]
        exact .insert hargs hprev hpos
  | update argc id type value =>
    have hid : id ∉ rwflNames := ho id (by simp [LCmd.names])
    simp only [rwflPrepare]
    split
    · exact hno _
    · exact hno _
    · rename_i v hv _
      obtain rfl : value = some v := checkArg_ok hv
      rw [h.find_eq hid]
      by_cases ha : id ∈ ht.alloc
      · simp only [if_pos ha, Option.map_some]
        split
        · rename_i hex
          exact ⟨ht, _, rfl, h, .refl ht, .inr ⟨_, rfl, .update hex rfl⟩⟩
        · exact hno _
      · simpa only [if_neg ha, Option.map_some] using hno _
  | rem argc id =>
    have hid : id ∉ rwflNames := ho id (by simp [LCmd.names])
    simp only [rwflPrepare]
    split
    · exact hno _
    · rw [h.find_eq hid]
      by_cases ha : id ∈ ht.alloc
      · simp only [if_pos ha, Option.map_some]
        split
        · rename_i hex
          exact ⟨ht, _, rfl, h, .refl ht, .inr ⟨_, rfl, .rem hex rfl⟩⟩
        · exact hno _
      · simpa only [if_neg ha, Option.map_some] using hno _

/-! ## The list as an object -/

/-- A typed list. -/
def RwflInv (s : Option (RwfHt n)) : Prop := ∃ ht, s = some ht ∧ Typed rwflNames ht ∧ Sound ht

section

variable {junk : Fin n → Sds → Normal → BitVec 32} {r : Fin n} {s s₁ : Option (RwfHt n)} {o : LCmd}

/-- A command on a typed list. -/
theorem rwflObj_prepare_cases {res : Option (RwflMsg n)} (hi : RwflInv s)
    (ho : ∀ k ∈ o.names, k ∉ rwflNames) (hp : (rwflObj n junk).prepare r s o = (s₁, res)) :
    ∃ ht ht', s = some ht ∧ s₁ = some ht' ∧ Typed rwflNames ht ∧ Sound ht ∧ Typed rwflNames ht' ∧
      SameList ht ht' ∧ ((res = none ∧ ht'.clock = ht.clock) ∨
        ∃ m, res = some m ∧ RwflSent r ht ht' o m) := by
  obtain ⟨ht, rfl, h, hs⟩ := hi
  obtain ⟨ht', res', hr, h', hsame, hres⟩ := rwflPrepare_step (r := r) h hs ho
  simp only [rwflObj, Option.bind_some, hr, Prod.mk.injEq] at hp
  obtain ⟨rfl, rfl⟩ := hp
  refine ⟨ht, ht', rfl, rfl, h, hs, h', hsame, ?_⟩
  rcases hres with ⟨err, rfl, hc⟩ | ⟨m, rfl, hsent⟩
  · exact .inl ⟨rfl, hc⟩
  · exact .inr ⟨m, rfl, hsent⟩

theorem strEq_notMem_rwflNames {k : Sds} (h : strEq k nullWord ∨ strEq k readdWord) :
    k ∉ rwflNames := by
  intro hk
  simp only [rwflNames, List.mem_cons, List.not_mem_nil, or_false] at hk
  rcases hk with rfl | rfl | rfl <;> exact absurd h (by decide)

/-- A message sent by a command that names none of the table's own names and finds room. -/
theorem RwflSent.ok {ht ht' : RwfHt n} {m : RwflMsg n} (h : RwflSent r ht ht' o m) (hs : Sound ht)
    (ho : ∀ k ∈ o.names, k ∉ rwflNames) (hroom : o.FindsRoom ht) : m.Ok := by
  cases h with
  | insert hargs hprev hsent =>
    refine ⟨?_, ho _ (by simp [LCmd.names]), (hsent.fits_iff hs).mpr hroom⟩
    rcases hprev with ⟨rfl, -⟩ | ⟨-, -, hw⟩
    · exact ho _ (by simp [LCmd.names])
    · exact strEq_notMem_rwflNames hw
  | update _ _ => exact ho _ (by simp [LCmd.names])
  | rem _ _ => exact ho _ (by simp [LCmd.names])

/-- The identifier that is sent fits the decoder's buffer exactly if the command finds room. -/
theorem RwflSent.fits_iff {ht ht' : RwfHt n} {m : RwflMsg n} (h : RwflSent r ht ht' o m)
    (hs : Sound ht) : (∀ pos ∈ m.posId, pos.length ≤ 1024) ↔ o.FindsRoom ht := by
  cases h with
  | insert hargs hprev hsent => simpa [RwflMsg.posId, LCmd.FindsRoom] using hsent.fits_iff hs
  | update _ _ => simp [RwflMsg.posId, LCmd.FindsRoom]
  | rem _ _ => simp [RwflMsg.posId, LCmd.FindsRoom]

/-- A command that names none of the table's own names, and that finds room if it is accepted. -/
def RwflOkOp (junk : Fin n → Sds → Normal → BitVec 32) (r : Fin n) (s : Option (RwfHt n))
    (o : LCmd) : Prop :=
  (∀ k ∈ o.names, k ∉ rwflNames) ∧
  (((rwflObj n junk).prepare r s o).2.isSome → ∀ ht, s = some ht → o.FindsRoom ht)

/-- A test for `RwflOkOp`. -/
def rwflOkOpOk (s : Option (RwfHt n)) (o : LCmd) : Bool :=
  o.avoids rwflNames && s.all fun ht => o.findsRoomOk ht

theorem rwflOkOp_of_ok (h : rwflOkOpOk s o = true) : RwflOkOp junk r s o := by
  simp only [rwflOkOpOk, Bool.and_eq_true] at h
  exact ⟨LCmd.avoids_iff.mp h.1, fun _ ht hst =>
    LCmd.findsRoom_of_ok ((Option.all_eq_true _ _).mp h.2 ht hst)⟩

end

end CrdtRedis
