import CrdtRedis.ListOrder
import CrdtRedis.RwfList.Model

/-!
# The length of the RWF list

The list keeps the number of its elements by hand: an insert counts if the element did not exist
and a remove if it did. An update can also make an element exist, with `PID_WAIT_INNATE`, and does
not count.

* `delta_eq`: a message changes the length as it changes the element's existence, if it is not such
  an update.
* `rwfl_length`: in every run without such updates the length is the number of elements that
  `rwfllist` emits.
* `rwfl_length_wrong`: an update that overtakes its insert leaves the element uncounted, and its
  remove makes the length negative.
-/

namespace CrdtRedis

open Broadcast Ht Linked

variable {n : ℕ}

/-! ## Listing -/

/-- An entry of the reply of `rwfllist`. -/
structure RwflEntry where
  oid : Sds
  content : Sds
  attrs : Attrs

def rwflEntry (x : Node (Rwfle n)) : Option RwflEntry :=
  x.oid.bind fun oid => x.content.map fun content => ⟨oid, content, x.body.attrs⟩

/-- `rwfllenCommand`. -/
def rwfllen (ht : RwfHt n) : Option ℤ := ht.getLen

/-- `rwfllistCommand`: the array length that is announced, and the entries. -/
def rwfllist (ht : RwfHt n) : Option (ℤ × List RwflEntry) :=
  ht.listing (fun x => x.header.exists) rwflEntry

/-! ## The count -/

/-- `1` if the element exists. -/
def Rwfle.count (x : Rwfle n) : ℤ := if x.header.exists then 1 else 0

/-- An update that makes an element exist: it has seen every remove that the element has seen, and
the element does not exist or has not seen every remove that the update has. -/
def Rwfle.revives (x : Rwfle n) : RwflMsg n → Prop
  | .update _ _ _ _ t => (∀ q, x.header.current.vector q ≤ t.vector q) ∧
      (x.header.exists = false ∨ ¬ vcEqual t x.header.current)
  | .insert .. | .rem .. => False

instance (x : Rwfle n) (m : RwflMsg n) : Decidable (x.revives m) :=
  match m with
  | .update .. => inferInstanceAs (Decidable (_ ∧ _))
  | .insert .. | .rem .. => inferInstanceAs (Decidable False)

/-- It is one that passes `updateCheck` where the element, after the remove part, does not exist. -/
theorem revives_update_iff {x : Rwfle n} {id type : Sds} {value : BitVec 64} {lt : Lc}
    {t : Clock n} : x.revives (.update id type value lt t) ↔
      vcEqual t (x.removed t).header.current ∧ (x.removed t).header.exists = false := by
  show (x.header.current.vector ≤ t.vector ∧
    (x.header.exists = false ∨ ¬ vcEqual t x.header.current)) ↔ _
  unfold Rwfle.removed
  rw [vcEqual_iff, vcEqual_iff]
  by_cases ht : t.vector ≤ x.header.current.vector
  · rw [removeCheck_of_le ht]
    constructor
    · rintro ⟨hge, hex⟩
      have heq := le_antisymm ht hge
      exact ⟨heq, hex.resolve_right fun hne => hne heq⟩
    · rintro ⟨heq, hex⟩
      exact ⟨heq.ge, .inl hex⟩
  · rw [removeCheck_of_not_le ht]
    have hcur : (rehRmvFunc x.header t).current.vector = x.header.current.vector ⊔ t.vector :=
      vcUpdate_vector _ _
    simp only [hcur, right_eq_sup]
    exact ⟨fun h => ⟨h.1, rfl⟩, fun h => ⟨h.1, .inr fun heq => ht heq.le⟩⟩

theorem removeDelta_eq (x : Rwfle n) (t : Clock n) :
    x.removeDelta t = (x.removed t).count - x.count := by
  unfold Rwfle.removeDelta Rwfle.removed Rwfle.count
  rcases h : removeCheck x.header t with ⟨h', b⟩
  cases b with
  | false => simp
  | true => cases hx : x.header.exists <;> simp [removeCheck_true h]

theorem addDelta_eq (x : Rwfle n) (args : InsertArgs) (t : Clock n) :
    x.addDelta t = (x.added args t).count - x.count := by
  unfold Rwfle.addDelta Rwfle.added Rwfle.count
  rcases h : addCheck x.header t with ⟨h', b⟩
  cases b with
  | false => simp
  | true => cases hx : x.header.exists <;> simp [addCheck_true h]

theorem acquiredUpdate_header (x : Rwfle n) (type : Sds) (t : Lc) (v : BitVec 32) :
    (acquiredUpdate x type t v).header = x.header := by
  unfold acquiredUpdate
  split
  · rfl
  · split <;> rfl

theorem updated_count {x : Rwfle n} {id type : Sds} {value : BitVec 64} {lt : Lc} {t : Clock n}
    (h : ¬ x.revives (.update id type value lt t)) :
    ((x.removed t).updated type value lt t).count = (x.removed t).count := by
  unfold Rwfle.updated Rwfle.count
  rcases hc : updateCheck (x.removed t).header t with ⟨h', b⟩
  cases b with
  | false => rfl
  | true =>
    obtain ⟨heq, hex⟩ := updateCheck_true hc
    have : (x.removed t).header.exists = true := by
      by_contra hne
      exact h (revives_update_iff.mpr ⟨heq, by simpa using hne⟩)
    simp [acquiredUpdate_header, hex this]

/-- A message changes the length as it changes the element's existence. -/
theorem delta_eq {x : Rwfle n} {m : RwflMsg n} (h : ¬ x.revives m) :
    x.delta m = (x.apply m).count - x.count := by
  cases m with
  | insert prev id content args pos t =>
    simp only [Rwfle.delta, Rwfle.apply, removeDelta_eq, addDelta_eq _ args]
    omega
  | update id type value lt t =>
    simp only [Rwfle.delta, Rwfle.apply, removeDelta_eq, updated_count h]
  | rem id t => exact removeDelta_eq x t

theorem count_eq_zero {x : Rwfle n} : x.count = 0 ↔ x.header.exists = false := by
  unfold Rwfle.count
  cases x.header.exists <;> simp

/-- A message that is not an insert makes no element exist. -/
theorem apply_not_exists {x : Rwfle n} {m : RwflMsg n} (h : ¬ x.revives m)
    (hm : ∀ prev id content args pos t, m ≠ .insert prev id content args pos t)
    (hx : x.header.exists = false) : (x.apply m).header.exists = false := by
  have hrem : ∀ t, (x.removed t).count = 0 := fun t => by
    have := removeDelta_eq x t
    rw [count_eq_zero.mpr hx] at this
    simpa [Rwfle.removeDelta, hx] using this.symm
  refine count_eq_zero.mp ?_
  cases m with
  | insert prev id content args pos t => exact absurd rfl (hm prev id content args pos t)
  | update id type value lt t => exact (updated_count h).trans (hrem t)
  | rem id t => exact hrem t

/-! ## The invariant -/

/-- The length is the number of elements of the chain that exist, and only those exist. -/
structure LenInv (ht : RwfHt n) (l : List Sds) : Prop where
  typed : Typed rwflNames ht
  sound : Sound ht
  listed : Listed ht l
  len : ht.lenD = (l.countP fun k => (ht.node k).body.header.exists : ℕ)
  mem : ∀ k, (ht.node k).body.header.exists → k ∈ l

/-- An insert that names another element before its own. -/
def RwflMsg.PrevNe : RwflMsg n → Prop
  | .insert prev id .. => prev ≠ id
  | _ => True

/-- The chain after a message: the same, or with the element of a first insert. -/
theorem RwflStep.listed {ht ht' : RwfHt n} {m : RwflMsg n} {l : List Sds} (h : RwflStep ht ht' m)
    (hl : Listed ht l) (hs : Sound ht) (hp : m.PrevNe) :
    ∃ l', Listed ht' l' ∧
      ((l' = l ∧ ∀ prev id content args pos t, m = .insert prev id content args pos t → id ∈ l) ∨
        (l'.Perm (m.id :: l) ∧ m.id ∉ l)) := by
  have hplace := h.place
  cases m with
  | insert prev id content args pos t =>
    have hmem : id ∈ l ↔ (ht.node id).oid.isSome := by rw [hl.mem, hs.oid]
    cases hoid : (ht.node id).oid with
    | some o =>
      refine ⟨l, (hplace.1 (by simp [hoid])).listed hl, .inl ⟨rfl, ?_⟩⟩
      intro _ _ _ _ _ _ heq
      cases heq
      exact hmem.mpr (by simp [hoid])
    | none =>
      obtain ⟨l', hl', hpl⟩ := (hplace.2 hoid).listed l hl hp
      exact ⟨l', hl', .inr ⟨hpl.perm, fun hid => by simp [hoid] at hmem; exact hmem hid⟩⟩
  | update id type value lt t => exact ⟨l, hplace.listed hl, .inl ⟨rfl, by simp⟩⟩
  | rem id t => exact ⟨l, hplace.listed hl, .inl ⟨rfl, by simp⟩⟩

/-- One message keeps the count. -/
theorem LenInv.effect {ht : RwfHt n} {l : List Sds} {m : RwflMsg n} (h : LenInv ht l) (hm : m.Ok)
    (hp : m.PrevNe) (hr : ¬ (ht.node m.id).body.revives m) :
    ∃ ht' l', rwflEffect ht m = some ht' ∧ LenInv ht' l' := by
  obtain ⟨ht', he, hstep⟩ := rwflEffect_step h.typed h.sound hm
  obtain ⟨l', hl', hcases⟩ := hstep.listed h.listed h.sound hp
  have hother : ∀ k ≠ m.id, (ht'.node k).body.header.exists = (ht.node k).body.header.exists :=
    fun k hk => by rw [hstep.body, if_neg hk]
  have hself : (ht'.node m.id).body = (ht.node m.id).body.apply m := by rw [hstep.body, if_pos rfl]
  have hf : m.id ∉ l → (ht.node m.id).body.header.exists = false := fun hid => by
    by_contra hne
    exact hid (h.mem _ (by simpa using hne))
  have hg : m.id ∉ l' → (ht'.node m.id).body.header.exists = false := by
    intro hid
    rcases hcases with ⟨rfl, hins⟩ | ⟨hperm, -⟩
    · rw [hself]
      refine apply_not_exists hr ?_ (hf hid)
      rintro prev id content args pos t rfl
      exact hid (hins _ _ _ _ _ _ rfl)
    · exact absurd (hperm.mem_iff.mpr (by simp)) hid
  refine ⟨ht', l', he, hstep.typed, hstep.sound, hl', ?_, fun k hk => ?_⟩
  · have hcount := countP_step h.listed.chain.nodup hother
      (hcases.imp_left fun h => h.1) hf hg
    rw [hstep.len, delta_eq hr, h.len, ← hself]
    simp only [Rwfle.count] at hcount ⊢
    omega
  · by_cases hkid : k = m.id
    · subst hkid
      by_contra hne
      simp [hg hne] at hk
    · rw [hother k hkid] at hk
      rcases hcases with ⟨rfl, -⟩ | ⟨hperm, -⟩
      · exact h.mem k hk
      · exact hperm.mem_iff.mpr (List.mem_cons_of_mem _ (h.mem k hk))

/-! ## Runs -/

/-- What `rwfllist` replies. -/
theorem LenInv.rwfllist {ht : RwfHt n} {l : List Sds} (h : LenInv ht l) :
    ∃ es, CrdtRedis.rwfllist ht = some (ht.lenD, es) ∧ ht.lenD = es.length := by
  obtain ⟨es, hes, hmap⟩ := listing_eq (fun x : Rwfle n => x.header.exists)
    rwflEntry (g := fun _ => ()) (f := fun _ => ()) h.typed h.sound h.listed
    fun k hk _ => by
      have hpos := (h.listed.mem k).mp hk
      obtain ⟨o, ho⟩ := Option.isSome_iff_exists.mp ((h.sound.oid k).trans hpos)
      obtain ⟨c, hc⟩ := Option.isSome_iff_exists.mp ((h.sound.content k).trans hpos)
      exact ⟨_, by simp [rwflEntry, ho, hc]; rfl, rfl⟩
  refine ⟨es, hes, ?_⟩
  have hlen := congrArg List.length hmap
  rw [List.length_map, List.length_map, ← List.countP_eq_length_filter] at hlen
  rw [h.len, hlen]

section

variable (junk : Fin n → Sds → Normal → BitVec 32)
  {s : Sys (Fin n) (Option (RwfHt n)) (RwflMsg n)}

/-- Runs of commands that name none of the table's own names and no element before itself and find
room for their identifiers, in which no update that is received makes an element exist. -/
def rwflLenGuard (s : Sys (Fin n) (Option (RwfHt n)) (RwflMsg n)) : Ev (Fin n) LCmd → Prop
  | .op r o _ => RwflOkOp junk r (s.st r) o ∧
    ∀ m, ((rwflObj n junk).prepare r (s.st r) o).2 = some m → m.PrevNe
  | .recv r i => ∀ o m ht, s.log i = some (o, m) → s.st r = some ht →
    ¬ (ht.node m.id).body.revives m

variable {junk}

/-- An update is not issued for an element that does not exist. -/
theorem RwflSent.not_revives {r : Fin n} {ht ht' : RwfHt n} {o : LCmd} {m : RwflMsg n}
    (h : RwflSent r ht ht' o m) : ¬ (ht.node m.id).body.revives m := by
  cases h with
  | insert _ _ _ => exact fun h => h
  | update hex _ =>
    rintro ⟨-, hne⟩
    rw [vcEqual_iff] at hne
    simp [RwflMsg.id, hex] at hne
  | rem _ _ => exact fun h => h

/-- A prepare phase keeps the count. -/
theorem lenInv_prepare {r : Fin n} {x x₁ : Option (RwfHt n)} {o : LCmd} {res : Option (RwflMsg n)}
    (hi : ∃ ht l, x = some ht ∧ LenInv ht l) (ho : ∀ k ∈ o.names, k ∉ rwflNames)
    (hp : (rwflObj n junk).prepare r x o = (x₁, res)) :
    ∃ ht' l, x₁ = some ht' ∧ LenInv ht' l ∧
      ∀ m, res = some m → ∃ ht, x = some ht ∧ Sound ht ∧ SameList ht ht' ∧
        RwflSent r ht ht' o m := by
  obtain ⟨ht, l, rfl, h⟩ := hi
  obtain ⟨ht₁, ht', h₁, rfl, -, -, ht'', hsame, hres⟩ :=
    rwflObj_prepare_cases ⟨ht, rfl, h.typed, h.sound⟩ ho hp
  obtain rfl := Option.some.inj h₁
  refine ⟨ht', l, rfl, ⟨ht'', hsame.kept.sound h.sound, hsame.kept.listed h.listed, ?_, ?_⟩,
    fun m hm => ?_⟩
  · rw [hsame.len, hsame.node, h.len]
  · rw [hsame.node]; exact h.mem
  · rcases hres with ⟨rfl, -⟩ | ⟨m', rfl, hsent⟩
    · cases hm
    · cases hm; exact ⟨ht, rfl, h.sound, hsame, hsent⟩

/-- The invariant of the runs. -/
theorem rwfl_lenInv (hs : (rwflObj n junk).Reach (rwflLenGuard junk) s) :
    (∀ r, ∃ ht l, s.st r = some ht ∧ LenInv ht l) ∧
      ∀ i o m, s.log i = some (o, m) → m.Ok ∧ m.PrevNe := by
  refine hs.local_rule (I := fun _ x => ∃ ht l, x = some ht ∧ LenInv ht l)
    (Q := fun m => m.Ok ∧ m.PrevNe) (fun r => ?_) ?_ ?_
  · exact ⟨_, [], rfl, .new (by decide), .new, .new, rfl, fun k hk => by
      simp [Ht.new, Node.new, rwfleNew, rehInit, Reh.exists] at hk⟩
  · intro s r o i x₁ res _ ih hg hp
    obtain ⟨ht', l, rfl, h, hsent⟩ := lenInv_prepare ih hg.1.1 hp
    refine ⟨⟨ht', l, rfl, h⟩, ?_⟩
    rintro m rfl
    obtain ⟨ht, hst, hsd, hsame, hsent⟩ := hsent m rfl
    have hok : m.Ok := hsent.ok hsd hg.1.1 (hg.1.2 (by rw [hp]; rfl) ht hst)
    have hne : m.PrevNe := hg.2 m (by rw [hp])
    obtain ⟨ht₂, l₂, he, h₂⟩ := h.effect hok hne (by rw [hsame.node]; exact hsent.not_revives)
    exact ⟨⟨hok, hne⟩, ht₂, l₂, by simp [rwflObj, he], h₂⟩
  · rintro s r i o m - ⟨ht, l, hst, h⟩ hg hl ⟨hok, hne⟩
    obtain ⟨ht₂, l₂, he, h₂⟩ := h.effect hok hne (hg o m ht hl hst)
    exact ⟨ht₂, l₂, by simp [rwflObj, hst, he], h₂⟩

/-- **The length is the number of elements that exist**, in every such run. -/
theorem rwfl_length (hs : (rwflObj n junk).Reach (rwflLenGuard junk) s) (r : Fin n) :
    ∃ (ht : RwfHt n) (l : List Sds) (len : ℕ) (es : List RwflEntry),
      s.st r = some ht ∧ Chain ht.nexts ht.headD l ∧
      len = l.countP (fun k => (ht.node k).body.header.exists) ∧
      rwfllen ht = some (len : ℤ) ∧ rwfllist ht = some ((len : ℤ), es) ∧ es.length = len := by
  obtain ⟨ht, l, hst, h⟩ := (rwfl_lenInv hs).1 r
  obtain ⟨es, hes, hlen⟩ := h.rwfllist
  refine ⟨ht, l, _, es, hst, h.listed.chain, rfl, ?_, ?_, ?_⟩
  · rw [rwfllen, h.typed.getLen_eq, h.len]
  · rw [hes, h.len]
  · have := h.len
    omega

variable (junk)

/-- A test for `rwflLenGuard`. -/
def rwflLenGuardOk (s : Sys (Fin n) (Option (RwfHt n)) (RwflMsg n)) : Ev (Fin n) LCmd → Bool
  | .op r o _ => rwflOkOpOk (s.st r) o &&
    match ((rwflObj n junk).prepare r (s.st r) o).2 with
    | some (.insert prev id ..) => prev ≠ id
    | _ => true
  | .recv r i =>
    (s.log i).all fun p => (s.st r).all fun ht => !decide ((ht.node p.2.id).body.revives p.2)

theorem rwflLenGuard_of_ok (s : Sys (Fin n) (Option (RwfHt n)) (RwflMsg n)) (e : Ev (Fin n) LCmd)
    (h : rwflLenGuardOk junk s e = true) : rwflLenGuard junk s e := by
  cases e with
  | op r o i =>
    simp only [rwflLenGuardOk, Bool.and_eq_true] at h
    refine ⟨rwflOkOp_of_ok h.1, fun m hm => ?_⟩
    cases m with
    | insert prev id content args pos t => simpa [hm, RwflMsg.PrevNe] using h.2
    | update id type value lt t => trivial
    | rem id t => trivial
  | recv r i =>
    intro o m ht hl hst
    simpa [rwflLenGuardOk, hl, hst] using h

end

/-- An insert, an update and a remove that arrive in this order. -/
def rwflLenDemo : List (Ev (Fin 2) LCmd) :=
  [.op 0 (insertFront "a".toList 0) 0, .op 0 (insertFront "b".toList 0) 1,
    .op 0 (.update 5 "a".toList "font".toList (some 5)) 2, .op 0 (.rem 3 "a".toList) 3,
    .recv 1 1, .recv 1 0, .recv 1 2, .recv 1 3]

/-- The condition holds of a run with all three commands. -/
theorem rwfl_length_demo :
    ∃ (ht : RwfHt 2) (l : List Sds) (len : ℕ) (es : List RwflEntry),
      ((rwflObj 2 fun _ _ _ => 0).runOf rwflLenDemo).st 1 = some ht ∧
      Chain ht.nexts ht.headD l ∧
      len = l.countP (fun k => (ht.node k).body.header.exists) ∧
      rwfllen ht = some (len : ℤ) ∧ rwfllist ht = some ((len : ℤ), es) ∧ es.length = len :=
  rwfl_length (Obj.reach_runOf (rwflLenGuard_of_ok fun _ _ _ => 0) rwflLenDemo
    (by decide +kernel)) 1

/-- An update that arrives at replica `2` before the insert that it follows. -/
def rwflOvertakeRun : List (Ev (Fin 3) LCmd) :=
  [.op 0 (insertFront "a".toList 0) 0, .recv 1 0,
    .op 1 (.update 5 "a".toList "font".toList (some 5)) 1, .recv 2 1, .recv 2 0]

/-- **An update that overtakes its insert is not counted**: the list announces no entry and emits
one, and after the element's remove its length is negative. -/
theorem rwfl_length_wrong :
    (∃ s, (rwflObj 3 fun _ _ _ => 0).Reach fifo s ∧
      ((s.st 2).bind fun ht => (rwfllist ht).map fun x => (x.1, x.2.length)) = some (0, 1)) ∧
    ∃ s, (rwflObj 3 fun _ _ _ => 0).Reach fifo s ∧ (s.st 2).bind rwfllen = some (-1) :=
  ⟨⟨_, Obj.reach_runOf Obj.fifo_of_fifoOk rwflOvertakeRun (by decide +kernel), by decide +kernel⟩,
    ⟨_, Obj.reach_runOf Obj.fifo_of_fifoOk (rwflOvertakeRun ++ [.op 2 (.rem 3 "a".toList) 2])
      (by decide +kernel), by decide +kernel⟩⟩

end CrdtRedis
