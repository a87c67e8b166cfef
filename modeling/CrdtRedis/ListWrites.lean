import CrdtRedis.ListGrowth
import CrdtRedis.ListRuns

/-!
# Writes to the two lists, where they are issued

A command that is acknowledged is applied at its replica at once. `LCmd.Done` says what the client
then finds: after an insert the element with the attributes given, after an update the attribute
with the value given and the others as they were, after a remove no element.

* RWF list: an element that does not exist has no stamps, so an insert writes every attribute, and
  the stamps of an element are not above its Lamport clock, so an update is accepted
  (`Rwfle.Clean`).
* Remove-Win list: the new timestamp is above all that the element stores, the joined clocks of the
  attributes too (`rl_fresh`).
* `list_writes`: in every run of both lists.
* `rwfl_write_lost`: an insert that is acknowledged and whose identifier does not fit the decoder's
  buffer leaves no list.
-/

namespace CrdtRedis

open Broadcast Ht

variable {n : ℕ} {X : Type}

/-! ## What a command asks for -/

/-- A number that a 32-bit field holds. -/
def InRange (v : BitVec 64) : Prop := -2 ^ 31 ≤ v.toInt ∧ v.toInt < 2 ^ 31

instance InRange.decidable (v : BitVec 64) : Decidable (InRange v) :=
  inferInstanceAs (Decidable (_ ∧ _))

/-- The numbers of the command fit their fields. -/
def LCmd.InRange : LCmd → Prop
  | .insert _ _ _ _ font size color property _ =>
    (∀ v ∈ font, CrdtRedis.InRange v) ∧ (∀ v ∈ size, CrdtRedis.InRange v) ∧
      (∀ v ∈ color, CrdtRedis.InRange v) ∧ ∀ v ∈ property, v.toNat ≤ 7
  | .update _ _ _ value => ∀ v ∈ value, CrdtRedis.InRange v
  | .rem _ _ => True

/-- The attributes that an insert gives. -/
structure Attrs.Given (a : Attrs) (g : InsertArgs) : Prop where
  normal : ∀ p, (a.normal p).toInt = (g.normal p).toInt
  property : a.property.toNat = g.property.toNat

/-- The attribute has the value of an update; a bit is set iff it is not zero. -/
def Attrs.Holds (a : Attrs) (v : BitVec 64) : Attr → Prop
  | .normal p => (a.normal p).toInt = v.toInt
  | .bitmap b => a.property.getLsbD b.bit = true ↔ v ≠ 0

/-- The command has taken effect. -/
def LCmd.Done (present : X → Bool) (shown : X → Option Attrs) (ht ht' : Ht n X) : LCmd → Prop
  | .insert _ _ id content font size color property _ =>
    present (ht'.node id).body = true ∧
    (∃ g a, insertArgs font size color property = .ok g ∧ shown (ht'.node id).body = some a ∧
      a.Given g) ∧
    ((ht.node id).oid = none → (ht'.node id).content = some content)
  | .update _ id type value => ∀ p, attrOf type = some p →
    ∃ v a a', value = some v ∧ shown (ht.node id).body = some a ∧
      shown (ht'.node id).body = some a' ∧ a'.Holds v p ∧ ∀ q ≠ p, a'.get q = a.get q
  | .rem _ id => present (ht'.node id).body = false

/-! ## Numbers -/

theorem InRange.toInt {v : BitVec 64} (h : InRange v) : (v.setWidth 32).toInt = v.toInt := by
  obtain ⟨h₁, h₂⟩ := h
  rw [BitVec.toInt_setWidth, Int.bmod_def]
  have hv : v.toInt = (v.toNat : ℤ) ∨ v.toInt = (v.toNat : ℤ) - 2 ^ 64 := by
    rw [BitVec.toInt_eq_toNat_cond]
    split <;> simp
  have hlt := v.isLt
  split <;> omega

theorem InRange.setWidth_eq_zero {v : BitVec 64} (h : InRange v) :
    (v.setWidth 32 == 0) = (v == 0) := by
  have hz : ∀ {w : ℕ} (x : BitVec w), x = 0 ↔ x.toInt = 0 := fun x => by
    rw [← BitVec.toInt_inj, show (0 : BitVec _).toInt = 0 from BitVec.toInt_zero]
  rw [Bool.eq_iff_iff, beq_iff_eq, beq_iff_eq, hz, hz, h.toInt]

theorem Attrs.holds_set (a : Attrs) (p : Attr) {v : BitVec 64} (h : InRange v) :
    (a.set p (v.setWidth 32) (v == 0)).Holds v p := by
  cases p with
  | normal p => simp [Attrs.set, Attrs.Holds, h.toInt]
  | bitmap b =>
    have hb := b.bit_lt
    cases hv : v == 0
    · have hne : v ≠ 0 := by simpa using hv
      simpa [Attrs.set, Attrs.Holds, hb] using hne
    · have heq : v = 0 := by simpa using hv
      simp [Attrs.set, Attrs.Holds, hb, heq]

/-- The bits of `property` that no attribute has. -/
def Attrs.Low (a : Attrs) : Prop := ∀ i, 3 ≤ i → a.property.getLsbD i = false

theorem Attrs.Low.set {a : Attrs} (h : a.Low) (p : Attr) (v : BitVec 32) (zero : Bool) :
    (a.set p v zero).Low := by
  cases p with
  | normal p => exact h
  | bitmap b =>
    intro i hi
    have hb : b.bit ≠ i := by
      have : b.bit < 3 := by cases b <;> decide
      omega
    cases zero <;> simp [Attrs.set, h i hi, hb]

theorem Attrs.Low.give {a : Attrs} (h : a.Low) (g : InsertArgs) (p : Attr) : (a.give g p).Low := by
  cases p with
  | normal q => exact h.set _ _ _
  | bitmap b => exact h.set _ _ _

/-- The bit of an attribute as `Attrs.get` reads it. -/
theorem getLsbD_of_get {a : Attrs} {g : InsertArgs} {b : Bitmap}
    (h : a.get (.bitmap b) = g.get (.bitmap b)) :
    a.property.getLsbD b.bit = g.property.getLsbD b.bit := by
  have hb := b.bit_lt
  simp only [Attrs.get, InsertArgs.get, InsertArgs.zero, decide_eq_true_eq] at h
  simp only [show (0 : BitVec 32) = 0#32 from rfl, show (0 : BitVec 64) = 0#64 from rfl,
    and_twoPow_eq_zero hb, and_twoPow_eq_zero (show b.bit < 64 by omega)] at h
  cases ha : a.property.getLsbD b.bit <;> cases hg : g.property.getLsbD b.bit <;>
    simp [ha, hg] at h ⊢

theorem Attrs.given_of_get {a : Attrs} {g : InsertArgs} (h : ∀ p, a.get p = g.get p) (hl : a.Low)
    (hn : ∀ p, InRange (g.normal p)) (hp : g.property.toNat ≤ 7) : a.Given g := by
  refine ⟨fun p => ?_, Nat.eq_of_testBit_eq fun i => ?_⟩
  · have : a.normal p = (g.normal p).setWidth 32 := h (.normal p)
    rw [this, (hn p).toInt]
  · rw [BitVec.testBit_toNat, BitVec.testBit_toNat]
    by_cases hi : 3 ≤ i
    · have hlt : g.property.toNat < 2 ^ i :=
        lt_of_lt_of_le (by omega : g.property.toNat < 2 ^ 3) (Nat.pow_le_pow_right (by decide) hi)
      rw [hl i hi, ← BitVec.testBit_toNat, Nat.testBit_lt_two_pow hlt]
    · obtain ⟨b, rfl⟩ : ∃ b : Bitmap, b.bit = i := by
        have : i = 0 ∨ i = 1 ∨ i = 2 := by omega
        rcases this with rfl | rfl | rfl
        · exact ⟨.bold, rfl⟩
        · exact ⟨.italic, rfl⟩
        · exact ⟨.underline, rfl⟩
      exact getLsbD_of_get (h (.bitmap b))

/-- The arguments of an insert in range. -/
theorem insertArgs_inRange {argc rand : ℕ} {prev id content : Sds}
    {font size color property : Option (BitVec 64)} {g : InsertArgs}
    (h : (LCmd.insert argc prev id content font size color property rand).InRange)
    (hg : insertArgs font size color property = .ok g) :
    (∀ p, InRange (g.normal p)) ∧ g.property.toNat ≤ 7 := by
  obtain ⟨hf, hs, hc, hp⟩ := h
  cases font with
  | none => cases hg
  | some font =>
    cases size with
    | none => cases hg
    | some size =>
      cases color with
      | none => cases hg
      | some color =>
        cases property with
        | none => cases hg
        | some property =>
          cases hg
          refine ⟨fun p => ?_, hp _ rfl⟩
          cases p
          · exact hf _ rfl
          · exact hs _ rfl
          · exact hc _ rfl

/-! ## The RWF list -/

/-- An element without stamps unless it exists, and none of them above its clock. -/
structure Rwfle.Clean (x : Rwfle n) : Prop where
  absent : x.header.exists = false → ∀ p, x.stamp p = none
  le : ∀ p, ∀ t ∈ x.stamp p, t.x ≤ x.current.x
  low : x.attrs.Low

namespace Rwfle.Clean

variable {x : Rwfle n} {t : Clock n}

theorem removed (h : x.Clean) (t : Clock n) : (x.removed t).Clean := by
  unfold Rwfle.removed
  rcases removeCheck x.header t with ⟨h', b⟩
  cases b with
  | false => exact h
  | true => exact ⟨fun _ _ => rfl, fun _ _ ht => (by cases ht), h.low⟩

theorem added (h : x.Clean) (args : InsertArgs) (t : Clock n) : (x.added args t).Clean := by
  unfold Rwfle.added
  rcases hc : addCheck x.header t with ⟨h', b⟩
  cases b with
  | false => exact h
  | true =>
    refine ⟨fun hex => by simp [addCheck_true hc] at hex, h.le, ?_⟩
    suffices hfold : ∀ (l : List Attr) (a : Attrs), a.Low →
        (l.foldl (fun a p => if (x.stamp p).isNone then a.give args p else a) a).Low from
      hfold _ _ h.low
    intro l
    induction l with
    | nil => exact fun _ ha => ha
    | cons p l ih =>
      intro a ha
      rw [List.foldl_cons]
      refine ih _ ?_
      split
      · exact ha.give args p
      · exact ha

theorem updated (h : x.Clean) (type : Sds) (value : BitVec 64) (lt : Lc) (t : Clock n) :
    (x.updated type value lt t).Clean := by
  unfold Rwfle.updated
  rcases hc : updateCheck x.header t with ⟨h', b⟩
  cases b with
  | false => exact h
  | true =>
    have hex : h'.exists = true := updateCheck_exists hc
    have hkeep : ({ x with header := h' } : Rwfle n).Clean :=
      ⟨fun hn => by simp [hex] at hn, h.le, h.low⟩
    simp only [acquiredUpdate]
    split
    · exact hkeep
    · rename_i p _
      split
      · refine ⟨fun hn => by simp [hex] at hn, fun q s hs => ?_, h.low.set p _ _⟩
        simp only [lcUpdate_x] at hs ⊢
        by_cases hq : q = p
        · subst hq
          rw [Function.update_self, Option.mem_some_iff] at hs
          subst hs
          exact le_max_right _ _
        · rw [Function.update_of_ne hq] at hs
          exact le_max_of_le_left (h.le q s hs)
      · exact hkeep

theorem apply (h : x.Clean) (m : RwflMsg n) : (x.apply m).Clean := by
  cases m with
  | insert prev id content args pos t => exact (h.removed t).added args t
  | update id type value lt t => exact (h.removed t).updated type value lt t
  | rem id t => exact h.removed t

end Rwfle.Clean

namespace Rwfle

variable {x : Rwfle n}

/-- An insert of an element that does not exist, with its own remove history. -/
theorem apply_insert (hc : x.Clean) (hex : x.header.exists = false) (prev id content : Sds)
    (args : InsertArgs) (pos : Leid) :
    let y := x.apply (.insert prev id content args pos x.header.current)
    y.header.exists = true ∧ ∀ p, y.attrs.get p = args.get p := by
  have hpid : x.header.pid < (x.header.current.id : ℕ) := by
    have : x.header.pid = PID_NEXIST := by simpa [Reh.exists] using hex
    rw [this, PID_NEXIST]
    omega
  have hadd : addCheck x.header x.header.current =
      ({ x.header with pid := (x.header.current.id : ℕ) }, true) := by
    simp [addCheck, vcEqual_iff.mpr rfl, hpid]
  simp only [apply, removed, removeCheck_of_le le_rfl, added, hadd]
  refine ⟨addCheck_true hadd, fun p => ?_⟩
  rw [Attrs.get_foldl_give _ fun p => (x.stamp p).isNone]
  simp [Attr.mem_all, hc.absent hex]

/-- An update of an element that exists, with its own remove history and next Lamport clock. -/
theorem apply_update (hc : x.Clean) (hex : x.header.exists = true) (id : Sds) {type : Sds}
    {p : Attr} (hp : attrOf type = some p) (value : BitVec 64) :
    (x.apply (.update id type value (lcNow x.current) x.header.current)).attrs =
      x.attrs.set p (value.setWidth 32) (value.setWidth 32 == 0) := by
  have hupd : updateCheck x.header x.header.current = (x.header, true) := by
    simp [updateCheck, vcEqual_iff.mpr rfl, hex]
  have hlt : (x.stamp p).all (fun s => decide (lcCmp s (lcNow x.current) ≤ 0)) = true := by
    cases hs : x.stamp p with
    | none => rfl
    | some s =>
      have hlt : s.x < (lcNow x.current).x := Int.lt_add_one_iff.mpr (hc.le p s hs)
      refine decide_eq_true ?_
      rw [lcCmp, if_pos hlt.ne]
      omega
  simp only [apply, removed, removeCheck_of_le le_rfl, updated, hupd, acquiredUpdate, hp, hlt,
    if_true]

/-- A remove with the next remove history. -/
theorem apply_rem (x : Rwfle n) (id : Sds) :
    (x.apply (.rem id (vcNow x.header.current))).header.exists = false := by
  simp only [apply, removed, removeCheck_of_not_le (lt_vcNow x.header.current).not_ge]
  rfl

end Rwfle

/-- What a command asks for is there after its own message. -/
theorem RwflSent.done {r : Fin n} {ht ht' ht₂ : RwfHt n} {o : LCmd} {m : RwflMsg n}
    (h : RwflSent r ht ht' o m) (hsame : SameList ht ht') (hstep : RwflStep ht' ht₂ m)
    (hc : ∀ k, (ht.node k).body.Clean) (ho : o.InRange) :
    o.Done (fun x => x.header.exists) (fun x => some x.attrs) ht ht₂ := by
  have hbody : (ht₂.node m.id).body = (ht.node m.id).body.apply m := by
    rw [hstep.body, if_pos rfl, hsame.node]
  cases h with
  | @insert argc prev prev' id content font size color property rand args pos hargs hprev hpos =>
    obtain ⟨hex, hget⟩ := Rwfle.apply_insert (hc id) hpos.absent prev' id content args pos
    rw [RwflMsg.id] at hbody
    obtain ⟨hn, hp⟩ := insertArgs_inRange ho hargs
    refine ⟨by rw [hbody]; exact hex, ⟨args, _, hargs, rfl, ?_⟩, fun hoid => ?_⟩
    · rw [hbody]
      exact Attrs.given_of_get hget ((hc id).apply _).low hn hp
    · have hcont : (ht₂.node id).content = _ :=
        congrFun (hstep.place.2 (by rw [hsame.node]; exact hoid)).content id
      simpa using hcont
  | @update argc id type value hex hclock =>
    rw [RwflMsg.id] at hbody
    intro p hp
    have hv : InRange value := ho value rfl
    have hattrs := Rwfle.apply_update (hc id) hex id ((attrOf_sdstolower type).trans hp) value
    rw [hv.setWidth_eq_zero] at hattrs
    refine ⟨value, _, _, rfl, rfl, rfl, ?_, fun q hq => ?_⟩
    · rw [hbody, hattrs]
      exact Attrs.holds_set _ p hv
    · rw [hbody, hattrs]
      exact Attrs.get_set_ne _ hq _ _
  | @rem argc id hex hclock =>
    rw [RwflMsg.id] at hbody
    show (ht₂.node id).body.header.exists = false
    rw [hbody]
    exact Rwfle.apply_rem _ id

/-- The elements of a run are clean. -/
theorem rwfl_clean {junk : Fin n → Sds → Normal → BitVec 32}
    {s : Sys (Fin n) (Option (RwfHt n)) (RwflMsg n)}
    (hs : (rwflObj n junk).Reach (rwflGuard junk) s) :
    ∀ r ht, s.st r = some ht → ∀ k, (ht.node k).body.Clean := by
  have hstep : ∀ {ht ht' : RwfHt n} {m : RwflMsg n}, RwflStep ht ht' m →
      (∀ k, (ht.node k).body.Clean) → ∀ k, (ht'.node k).body.Clean := by
    intro ht ht' m hm h k
    rw [hm.body]
    split
    · exact (h k).apply m
    · exact h k
  refine rwfl_rule (I := fun _ _ ht => ∀ k, (ht.node k).body.Clean) hs (fun _ _ h => h)
    ?_ ?_ ?_ ?_ ?_
  · intro r ht hinit k
    obtain rfl := Option.some.inj hinit
    exact ⟨fun _ _ => rfl, fun _ _ ht => (by cases ht), fun i _ => BitVec.getLsbD_zero⟩
  · intro _ _ ht ht' hsame h
    rw [hsame.node]
    exact h
  · exact fun _ _ _ _ _ _ _ h => h
  · intro _ _ _ _ ht ht' _ _ _ _ _ hsame _ hm h
    exact hstep hm (by rw [hsame.node]; exact h)
  · exact fun _ _ _ _ _ _ _ _ _ _ _ _ hm _ h => hstep hm h

theorem rwfl_writes {junk : Fin n → Sds → Normal → BitVec 32}
    {s s' : Sys (Fin n) (Option (RwfHt n)) (RwflMsg n)} {r : Fin n} {o : LCmd} {i : ℕ}
    {m : RwflMsg n} (hs : (rwflObj n junk).Reach (rwflGuard junk) s)
    (hg : rwflGuard junk s (.op r o i)) (ho : o.InRange)
    (hstep : (rwflObj n junk).step s (.op r o i) = some s') (hl : s.log i = none)
    (hm : s'.log i = some (r, m)) :
    ∃ ht ht', s.st r = some ht ∧ s'.st r = some ht' ∧
      o.Done (fun x => x.header.exists) (fun x => some x.attrs) ht ht' := by
  obtain ⟨s₁, hp, rfl⟩ := step_issue hstep hl hm
  obtain ⟨ht, ht', ht₂, hst, rfl, -, hsame, hsent, hmsg, hst₂⟩ := rwfl_issue hs hg hp
  exact ⟨ht, ht₂, hst, hst₂ i, hsent.done hsame hmsg (rwfl_clean hs r ht hst) ho⟩

/-! ## The Remove-Win list -/

theorem rlAseUpdate_clock_le {u : RlUpd} {t c : Clock n} {a : RlAse n} {p : Attr}
    (ha : (a.clock p).vector ≤ c.vector) (ht : t.vector ≤ c.vector) :
    ((rlAseUpdate u t a).clock p).vector ≤ c.vector := by
  unfold rlAseUpdate
  split
  · exact ha
  · rename_i q _
    split
    · by_cases hp : p = q
      · subst hp
        simp only [Function.update_self, vcUpdate_vector]
        exact sup_le ha ht
      · simp only [Function.update_of_ne hp]
        exact ha
    · exact ha

/-- The clocks of an entry are joins of timestamps of the history. -/
theorem rwEntry_clock_le {H : List (RwMsg n InsertArgs RlUpd)} {c : Clock n} {g : InsertArgs}
    {t : Clock n} (hH : ∀ m ∈ H, m.t.vector ≤ c.vector) (ht : t.vector ≤ c.vector) (p : Attr) :
    ((rwEntry (rlKind n) H g t).clock p).vector ≤ c.vector := by
  induction H using List.reverseRecOn with
  | nil => exact ht
  | append_singleton H m ih =>
    have ih := ih fun m' hm' => hH m' (List.mem_append_left _ hm')
    cases m with
    | upd u t' =>
      rw [rwEntry_snoc_upd]
      split
      · exact rlAseUpdate_clock_le ih (hH (.upd u t') (by simp))
      · exact ih
    | add a t' => rw [rwEntry_snoc_of_ne rfl]; exact ih
    | rem t' => rw [rwEntry_snoc_of_ne rfl]; exact ih

/-- All that an element stores is below `t`. -/
structure RwSets.Below (z : RwSets n (RlAse n)) (t : Clock n) : Prop where
  aset : ∀ a ∈ z.aset, before a.t t = true
  clock : ∀ a ∈ z.aset, ∀ p, vcCmp (a.clock p) t < 0
  rset : ∀ c ∈ z.rset, before c t = true
  value : Greatest (rlKind n) z.aset z.value

/-- The next timestamp of a list is above all that its elements store. -/
theorem rl_fresh {s : Sys (Fin n) (Option (RlSt n)) (RlMsg n)} {r : Fin n} {x : RlSt n}
    (hs : (rlObj n).Reach rlGuard s) (hx : s.st r = some x) (k : Sds) :
    (x.ht.node k).body.Below (vcNow x.ht.clock) := by
  have hcl := rl_rwClosed hs hx k
  have hle : ∀ m ∈ rlOn k x.hist, m.t.vector ≤ x.ht.clock.vector := by
    intro m hm
    obtain ⟨m', hm', -, rfl⟩ := mem_rlOn.mp hm
    rw [RlMsg.toRw_t]
    exact ((rl_hist hs hx).2 m' hm').2
  have hless : ∀ c : Clock n, c.vector ≤ x.ht.clock.vector →
      vcCmp c (vcNow x.ht.clock) = VC_LESS := fun c hc =>
    vcCmp_of_lt (lt_of_le_of_lt hc (lt_vcNow _))
  have hbefore : ∀ c : Clock n, c.vector ≤ x.ht.clock.vector →
      before c (vcNow x.ht.clock) = true := fun c hc => by
    rw [before, hless c hc]
    rfl
  refine ⟨fun a ha => ?_, fun a ha p => ?_, fun c hc => ?_, hcl.value⟩
  · obtain ⟨g, t, hg, -, rfl⟩ := (hcl.aset a).mp ha
    refine hbefore _ ?_
    rw [show (rwEntry (rlKind n) (rlOn k x.hist) g t).t = t from
      stamp_rwEntry (K := rlKind n) g t]
    exact hle _ hg
  · obtain ⟨g, t, hg, -, rfl⟩ := (hcl.aset a).mp ha
    have hclock := rwEntry_clock_le (g := g) hle (hle (.add g t) hg) p
    simp only [RwMsg.t] at hclock
    rw [hless _ hclock]
    decide
  · exact hbefore c (hle _ ((hcl.rset c).mp hc).1)

namespace RwSets.Below

variable {z : RwSets n (RlAse n)} {t : Clock n}

/-- An insert above all that is stored leaves its own entry. -/
theorem add (h : z.Below t) (args : InsertArgs) :
    (z.add (rlKind n) args t).lookup = true ∧
      (z.add (rlKind n) args t).shown = some (rlAseNew args t).attrs := by
  have haset : (z.add (rlKind n) args t).aset = [rlAseNew args t] := by
    refine (RwSets.add_aset z args t).trans ?_
    rw [List.filter_eq_nil_iff.mpr fun a ha => by
      simp [show before ((rlKind n).stamp a) t = true from h.aset a ha]]
    rfl
  have hrset : (z.add (rlKind n) args t).rset = [] :=
    (RwSets.add_rset (K := rlKind n) z args t).trans
      (List.filter_eq_nil_iff.mpr fun c hc => by simp [h.rset c hc])
  have hvalue : Greatest (rlKind n) _ (z.add (rlKind n) args t).value :=
    RwSets.value_exec h.value (.add args t)
  simp only [RwSets.exec, haset] at hvalue
  obtain ⟨c, hc⟩ := Option.ne_none_iff_exists'.mp (mt hvalue.none.mp (by simp))
  obtain ⟨a, ha, hac⟩ := hvalue.mem c hc
  obtain rfl := List.mem_singleton.mp ha
  have hac : decide ((rlAseNew args t).t = c) = true := decide_eq_true hac
  refine ⟨by simp [RwSets.lookup, haset, hrset], ?_⟩
  rw [RwSets.shown, hc, Option.bind_some, haset, List.find?_cons, hac]
  rfl

/-- An element that exists shows an entry. -/
theorem shown (h : z.Below t) (hex : z.lookup) : ∃ a, z.shown = some a := by
  have hne : z.aset ≠ [] := fun h0 => by simp [RwSets.lookup, h0] at hex
  obtain ⟨c, hc⟩ := Option.ne_none_iff_exists'.mp (mt h.value.none.mp hne)
  obtain ⟨a, ha, hac⟩ := h.value.mem c hc
  have hac : decide (a.t = c) = true := decide_eq_true hac
  have hsome : (z.aset.find? (·.t = c)).isSome := List.find?_isSome.mpr ⟨a, ha, hac⟩
  obtain ⟨e, he⟩ := Option.isSome_iff_exists.mp hsome
  exact ⟨e.attrs, by rw [RwSets.shown, hc, Option.bind_some]; exact congrArg _ he⟩

/-- An update above all that is stored is accepted. -/
theorem update (h : z.Below t) {a : Attrs} (ha : z.shown = some a) {u : RlUpd} {p : Attr}
    (hp : attrOf u.type = some p) : (z.update (rlKind n) u t).shown =
      some (a.set p (u.value.setWidth 32) (u.value == 0)) := by
  obtain ⟨c, hc, ha⟩ := Option.bind_eq_some_iff.mp ha
  obtain ⟨e, he, rfl⟩ := Option.map_eq_some_iff.mp ha
  have hmem : e ∈ z.aset := List.mem_of_find?_eq_some he
  have hec : e.t = c := by simpa using List.find?_some he
  have hfind := z.find?_update (K := rlKind n) u t c
  rw [show z.aset.find? (fun a => decide ((rlKind n).stamp a = c)) = some e from he,
    Option.map_some, if_pos (hec ▸ h.aset e hmem)] at hfind
  rw [RwSets.shown, show (z.update (rlKind n) u t).value = some c from hc, Option.bind_some,
    show (z.update (rlKind n) u t).aset.find? (·.t = c) = _ from hfind, Option.map_some]
  simp [rlKind, rlAseUpdate, hp, h.clock e hmem p]

end RwSets.Below

theorem rlAseNew_given {g : InsertArgs} (t : Clock n) (hn : ∀ p, InRange (g.normal p))
    (hp : g.property.toNat ≤ 7) : (rlAseNew g t).attrs.Given g := by
  refine ⟨fun p => (hn p).toInt, ?_⟩
  rw [rlAseNew, BitVec.toNat_setWidth]
  omega

/-- What a command asks for is there after its own operation. -/
theorem RlSent.done {ht ht' ht₂ : RlHt n} {o : LCmd} {m : RlMsg n} (h : RlSent ht ht' o m)
    (hsame : SameList ht ht') (hstep : RlStep ht'.withClock ht₂ m)
    (hb : ∀ k, (ht.node k).body.Below (vcNow ht.clock)) (ho : o.InRange) :
    o.Done RwSets.lookup RwSets.shown ht ht₂ := by
  have hsame' := hsame.trans (.withClock ht')
  have hbody : (ht₂.node m.id).body = (ht.node m.id).body.exec (rlKind n) m.toRw := by
    rw [hstep.body, if_pos rfl, hsame'.node]
  cases h with
  | @insert argc prev prev' id content font size color property rand args pos hargs hprev hpos =>
    have hbody : (ht₂.node id).body =
      (ht.node id).body.add (rlKind n) args (vcNow ht.clock) := hbody
    obtain ⟨hex, hshown⟩ := (hb id).add args
    obtain ⟨hn, hp⟩ := insertArgs_inRange ho hargs
    refine ⟨hbody ▸ hex, ⟨args, _, hargs, hbody ▸ hshown, rlAseNew_given _ hn hp⟩, fun hoid => ?_⟩
    have hcont : (ht₂.node id).content = _ :=
      congrFun (hstep.place.2 (by rw [hsame'.node]; exact hoid)).content id
    simpa using hcont
  | @update argc id type value hex =>
    have hbody : (ht₂.node id).body =
      (ht.node id).body.update (rlKind n) ⟨sdstolower type, value⟩ (vcNow ht.clock) := hbody
    intro p hp
    obtain ⟨a, ha⟩ := (hb id).shown hex
    have hshown := (hb id).update ha (u := ⟨sdstolower type, value⟩)
      ((attrOf_sdstolower type).trans hp)
    exact ⟨value, a, _, rfl, ha, hbody ▸ hshown, Attrs.holds_set a p (ho value rfl),
      fun q hq => Attrs.get_set_ne _ hq _ _⟩
  | @rem argc id hex =>
    have hbody : (ht₂.node id).body = (ht.node id).body.remove (rlKind n) (vcNow ht.clock) := hbody
    show (ht₂.node id).body.lookup = false
    rw [hbody]
    exact RwSets.lookup_remove _ _

theorem LCmd.Done.congr_right {present : X → Bool} {shown : X → Option Attrs}
    {ht ht' ht₂ : Ht n X} {o : LCmd} (h : o.Done present shown ht ht') (hs : SameList ht' ht₂) :
    o.Done present shown ht ht₂ := by
  cases o <;> simpa only [LCmd.Done, hs.node] using h

theorem rl_writes {s s' : Sys (Fin n) (Option (RlSt n)) (RlMsg n)} {r : Fin n} {o : LCmd} {i : ℕ}
    {m : RlMsg n} (hs : (rlObj n).Reach rlGuard s) (hg : rlGuard s (.op r o i)) (ho : o.InRange)
    (hstep : (rlObj n).step s (.op r o i) = some s') (hl : s.log i = none)
    (hm : s'.log i = some (r, m)) :
    ∃ x x', s.st r = some x ∧ s'.st r = some x' ∧
      o.Done RwSets.lookup RwSets.shown x.ht x'.ht := by
  obtain ⟨s₁, hp, rfl⟩ := step_issue hstep hl hm
  obtain ⟨x, ht', hst, rfl, htr₀, htr, -, hsame, hc, hres⟩ :=
    rlObj_prepare_cases ((rl_causal hs).2 r) hg.1 hp
  obtain ⟨m', hm', hsent⟩ := hres.resolve_left (by simp)
  obtain rfl := Option.some.inj hm'
  have hok : m.Ok := hsent.ok htr₀.sound hg.1 (hg.2 (by rw [hp]; rfl) x hst)
  obtain ⟨y, ht₁, he, hown, hsame₁⟩ := rl_own hs hst htr hc hok hsent.t
  exact ⟨x, y, hst, by simpa [rlObj] using he,
    (hsent.done hsame hown (rl_fresh hs hst) ho).congr_right hsame₁⟩

/-! ## Both lists -/

/-- Every command of a run of `P` that is acknowledged, its numbers in range, has taken effect. -/
def WritesDone {S M : Type} (P : Obj (Fin n) S LCmd M)
    (G : Sys (Fin n) S M → Ev (Fin n) LCmd → Prop) (list : S → Option (Ht n X))
    (present : X → Bool) (shown : X → Option Attrs) : Prop :=
  ∀ s s' r o i m, P.Reach G s → G s (.op r o i) → o.InRange → P.step s (.op r o i) = some s' →
    s.log i = none → s'.log i = some (r, m) →
    ∃ ht ht', list (s.st r) = some ht ∧ list (s'.st r) = some ht' ∧ o.Done present shown ht ht'

/-- **Acknowledged writes take effect** where they are issued, in every run of both lists in which
no command uses the table's own names and the new identifiers find room. -/
theorem list_writes (junk : Fin n → Sds → Normal → BitVec 32) :
    WritesDone (rwflObj n junk) (rwflGuard junk) (fun ht => ht) (fun x => x.header.exists)
      (fun x => some x.attrs) ∧
    WritesDone (rlObj n) rlGuard rlHt RwSets.lookup RwSets.shown := by
  refine ⟨fun s s' r o i m hs hg ho hstep hl hm => rwfl_writes hs hg ho hstep hl hm,
    fun s s' r o i m hs hg ho hstep hl hm => ?_⟩
  obtain ⟨x, x', hst, hst', h⟩ := rl_writes hs hg ho hstep hl hm
  exact ⟨x.ht, x'.ht, by rw [hst]; rfl, by rw [hst']; rfl, h⟩

/-- A concrete run, with the command after the events `es`. -/
theorem WritesDone.of_run {S M : Type} {P : Obj (Fin n) S LCmd M}
    {G : Sys (Fin n) S M → Ev (Fin n) LCmd → Prop} {list : S → Option (Ht n X)}
    {present : X → Bool} {shown : X → Option Attrs} {g : Sys (Fin n) S M → Ev (Fin n) LCmd → Bool}
    (h : WritesDone P G list present shown) (hg : ∀ s e, g s e = true → G s e)
    (es : List (Ev (Fin n) LCmd)) (r : Fin n) (o : LCmd) (i : ℕ) (ho : o.InRange)
    (hok : P.runOk g (es ++ [.op r o i]) P.start = true) (hok₀ : P.runOk g es P.start = true)
    (hnext : g (P.runOf es) (.op r o i) = true) (hl : (P.runOf es).log i = none)
    (hm : ((P.runOf (es ++ [.op r o i])).log i).map Prod.fst = some r) :
    ∃ ht ht', list ((P.runOf es).st r) = some ht ∧
      list ((P.runOf (es ++ [.op r o i])).st r) = some ht' ∧ o.Done present shown ht ht' := by
  obtain ⟨⟨r', m⟩, hlog, rfl⟩ := Option.map_eq_some_iff.mp hm
  have hstep := Obj.run_runOf es [.op r' o i] hok
  simp only [Obj.run, Option.bind_fun_some] at hstep
  exact h _ _ r' o i m (Obj.reach_runOf hg es hok₀) (hg _ _ hnext) ho hstep hl hlog

/-- The word of an update in capitals, after a readd of the element, in both lists. -/
theorem list_writes_demo :
    let a : Sds := "a".toList
    let o : LCmd := .update 5 a "FONT".toList (some 7)
    let es : List (Ev (Fin 2) LCmd) := [.op 0 (insertFront a 5) 0, .recv 1 0, .op 1 (.rem 3 a) 1,
      .op 1 (.insert 9 "readd".toList a "d".toList (some 2) (some 2) (some 2) (some 0) 0) 2]
    (∃ ht ht', ((rwflObj 2 fun _ _ _ => 0).runOf es).st 1 = some ht ∧
      ((rwflObj 2 fun _ _ _ => 0).runOf (es ++ [.op 1 o 3])).st 1 = some ht' ∧
      o.Done (fun x => x.header.exists) (fun x => some x.attrs) ht ht') ∧
    ∃ ht ht', rlHt (((rlObj 2).runOf es).st 1) = some ht ∧
      rlHt (((rlObj 2).runOf (es ++ [.op 1 o 3])).st 1) = some ht' ∧
      o.Done RwSets.lookup RwSets.shown ht ht' := by
  have ho : (LCmd.update 5 "a".toList "FONT".toList (some 7)).InRange := by
    rintro v hv
    obtain rfl := Option.some.inj hv
    decide
  exact ⟨(list_writes fun _ _ _ => 0).1.of_run (rwflGuard_of_ok _) _ 1 _ 3 ho (by decide +kernel)
      (by decide +kernel) (by decide +kernel) (by decide +kernel) (by decide +kernel),
    (list_writes fun _ _ _ => 0).2.of_run rlGuard_of_ok _ 1 _ 3 ho (by decide +kernel)
      (by decide +kernel) (by decide +kernel) (by decide +kernel) (by decide +kernel)⟩

/-- **An insert that is acknowledged can leave no list**: after 1024 inserts in front, all with
names that the table does not use, the next one is sent, and its own effect phase writes behind the
decoder's buffer. -/
theorem rwfl_write_lost :
    let P := rwflObj 1 fun _ _ _ => 0
    ∃ s s' o i m, P.Reach (rwflListGuard fun _ _ _ => 0) s ∧ (∀ k ∈ o.names, k ∉ rwflNames) ∧
      o.InRange ∧ P.step s (.op 0 o i) = some s' ∧ s.log i = none ∧ s'.log i = some (0, m) ∧
      s'.st 0 = none := by
  intro P
  obtain ⟨s, ht', m, hs, hlog, hp, -, he, -⟩ := rwfl_overflow fun _ _ _ => 0
  have hnone := log_next hlog
  refine ⟨s, P.issue s 0 1024 (some ht') m, insertFront (frontId 1024) 0, 1024, m, hs,
    insertFront_names (by decide) (frontId_notMem 1024 (by decide)), ?_,
    by simp only [Obj.step, hnone, hp, P]; rfl, hnone, Obj.issue_log_self,
    by rw [Obj.issue_st_self]; exact he⟩
  refine ⟨?_, ?_, ?_, ?_⟩ <;>
  · rintro v hv
    obtain rfl := Option.some.inj hv
    decide

end CrdtRedis
