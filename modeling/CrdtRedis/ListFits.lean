import CrdtRedis.ListGrounded
import CrdtRedis.ListGrowth
import CrdtRedis.Wire

/-!
# When an identifier fits the decoder's buffer

A new identifier ends at the first level with room between its neighbours (`newLevel_lt_iff`). So it
fits the buffer of 1024 positions if and only if there is room at one of the first 1024 levels
(`constructLeid_fits`). An element that is added again sends the identifier that it has, and that
one was decoded before: whatever the commands, no list stores an identifier that does not fit
(`Fits`).

* `LCmd.Room`: what a command needs of the list it is issued at.
* `identifiers_fit`: a command's identifier fits if and only if its list has room for it, and so
  every identifier of a run fits whose commands find room.
* `identifiers_outgrow`: runs of inserts in front, which do not.
* `rwflGuard_iff_fits`, `rlGuard_iff_fits`: the guards of the runs ask the same of a command as that
  its identifier fits.
* `readLeid_wire`: the lists decode an identifier as `sdsToLeid` does.
-/

namespace CrdtRedis

open Broadcast

variable {n : ℕ} {X : Type}

namespace Ht

/-- What a list does with the identifier of a message is what the codec does with its text. -/
theorem readLeid_wire {p : Leid} (hne : p ≠ []) (hp : ∀ x ∈ p, x.InInt) :
    (leidToSds p).bind sdsToLeid = readLeid p := by
  rw [leidToSds_sdsToLeid hp]
  simp only [readLeid, leidBuf, ne_eq, hne, not_false_eq_true, true_and]

variable {present : X → Bool} {tick : Clock n → Clock n} {ht ht' : Ht n X}
  {k p e id content prev : Sds} {pos x : Leid} {rand : ℕ} {pre : Option Sds}
  {res : Except ReplyErr (Sds × Sds × Leid)}

/-! ## Calls that change no element -/

theorem getCurrent_node (h : ht.getCurrent = some ht') : ht'.node = ht.node := by
  unfold getCurrent at h
  split at h <;> cases h <;> rfl

theorem getOps_node (h : ht.getOps = some ht') : ht'.node = ht.node := by
  unfold Ht.getOps at h
  split at h <;> cases h <;> rfl

theorem incrLen_node {v : ℤ} (h : ht.incrLen v = some ht') : ht'.node = ht.node := by
  obtain ⟨len, -, rfl⟩ := Option.map_eq_some_iff.mp h
  rfl

theorem create_node (h : ht.create k = some (ht', e)) : ht'.node = ht.node := by
  unfold Ht.create at h
  split at h <;> cases h <;> rfl

theorem insertPos_node (h : ht.insertPos present tick pre prev id e rand = some (ht', res)) :
    ht'.node = ht.node := by
  unfold Ht.insertPos at h
  split at h
  · cases h; rfl
  split at h
  · split at h
    · cases h; rfl
    · obtain ⟨q, -, h⟩ := Option.bind_eq_some_iff.mp h
      obtain ⟨ht₁, hc, h⟩ := Option.map_eq_some_iff.mp h
      cases h
      exact (setClock_node ..).trans (getCurrent_node hc)
  split at h
  · cases h; rfl
  · obtain ⟨x, -, h⟩ := Option.map_eq_some_iff.mp h
    cases h; rfl

theorem prepareInsert_node (h : ht.prepareInsert present tick prev id rand = some (ht', res)) :
    ht'.node = ht.node := by
  rcases prepareInsert_cases h with ⟨rfl, -⟩ | ⟨pre, prev', ht₁, e, -, hc, -, hi⟩
  · rfl
  · exact (insertPos_node hi).trans (create_node hc)

/-! ## What is stored fits -/

namespace Fits

theorem congr (h : Fits ht) (hn : ht'.node = ht.node) : Fits ht' := fun k => hn ▸ h k

theorem setNode {y : Node X} (h : Fits ht) (hy : ∀ x ∈ y.posId, x.length ≤ 1024) :
    Fits (ht.setNode p y) := by
  intro k
  by_cases hk : k = p
  · subst hk
    simpa using hy
  · simpa [hk] using h k

theorem setBody (h : Fits ht) (y : X) : Fits (ht.setBody p y) := h.setNode (h p)

theorem setNext (h : Fits ht) (q : Option Sds) : Fits (ht.setNext p q) := h.setNode (h p)

theorem setBody_incrLen {y : X} {b : Bool} {d : ℤ} (h : Fits ht)
    (hl : (if b then (ht.setBody e y).incrLen d else some (ht.setBody e y)) = some ht') :
    Fits ht' := by
  split at hl
  · exact (h.setBody y).congr (incrLen_node hl)
  · obtain rfl := Option.some.inj hl
    exact h.setBody y

theorem link (h : Fits ht) (hl : ht.link e x prev = some ht') : Fits ht' := by
  obtain ⟨o, -, hl⟩ := Option.bind_eq_some_iff.mp hl
  cases o with
  | none =>
    obtain rfl := Option.some.inj hl
    exact h.congr rfl
  | some h₀ =>
    obtain ⟨y, -, hl⟩ := Option.bind_eq_some_iff.mp hl
    split at hl
    · obtain rfl := Option.some.inj hl
      have h₁ : Fits (ht.setHead e) := h.congr rfl
      exact h₁.setNext _
    · obtain ⟨q, -, hl⟩ := Option.bind_eq_some_iff.mp hl
      obtain ⟨⟨a, b⟩, -, rfl⟩ := Option.map_eq_some_iff.mp hl
      exact (h.setNext _).setNext _

/-- The identifier of a new element was decoded. -/
theorem insertNew (h : Fits ht) (hi : ht.insertNew e id content prev pos = some ht') :
    Fits ht' := by
  obtain ⟨x, hx, hl⟩ := Option.bind_eq_some_iff.mp hi
  have hlen : x.length ≤ 1024 := by
    unfold readLeid at hx
    split at hx
    · cases hx
      assumption
    · cases hx
  refine link (h.setNode fun y hy => ?_) hl
  cases hy
  exact hlen

end Fits

/-- The identifier of an insert that is accepted: a new one, or that of the element. -/
theorem insertPos_ok {prev' e' : Sds}
    (h : ht.insertPos present tick pre prev id e rand = some (ht', .ok (prev', e', pos))) :
    ((ht.node e).oid = none ∧ ∃ left right, ∃ t : Clock n, ht.neighbours pre = some (left, right) ∧
      pos = constructLeid left right t rand) ∨
    ((ht.node e).oid ≠ none ∧ (ht.node e).posId = some pos) := by
  unfold Ht.insertPos at h
  split at h
  · cases h
  split at h
  · rename_i hoid
    split at h
    · cases h
    · obtain ⟨⟨left, right⟩, hn, h⟩ := Option.bind_eq_some_iff.mp h
      obtain ⟨ht₁, -, h⟩ := Option.map_eq_some_iff.mp h
      cases h
      exact .inl ⟨Option.isNone_iff_eq_none.mp hoid, left, right, _, hn, rfl⟩
  split at h
  · cases h
  · rename_i hoid _
    obtain ⟨x, hx, h⟩ := Option.map_eq_some_iff.mp h
    cases h
    exact .inr ⟨fun hn => hoid (Option.isNone_iff_eq_none.mpr hn), hx⟩

end Ht

open Ht

/-- The list has room for the command: if it is an insert that makes a new identifier, then between
the neighbours of the new element. -/
def LCmd.Room (ht : Ht n X) : LCmd → Prop
  | .insert _ prev id .. => ∀ pre ht₁ e left right, ht.find prev = some pre →
      ht.create id = some (ht₁, e) → (ht₁.node e).oid = none →
      ht₁.neighbours pre = some (left, right) → RoomInBuffer left right
  | .update .. | .rem .. => True

/-- **The identifier of an accepted insert fits exactly if its list has room for it.** -/
theorem Ht.Fits.prepareInsert_iff {present : X → Bool} {tick : Clock n → Clock n} {ht ht' : Ht n X}
    {prev prev' id e : Sds} {pos : Leid} {rand : ℕ} {o : LCmd} (h : Fits ht)
    (ho : o.Inserts prev id rand)
    (hp : ht.prepareInsert present tick prev id rand = some (ht', .ok (prev', e, pos))) :
    pos.length ≤ 1024 ↔ o.Room ht := by
  rcases prepareInsert_cases hp with ⟨-, _, hr⟩ | ⟨pre, _, ht₁, e₁, hf, hc, -, hi⟩
  · cases hr
  cases ho with
  | mk hargc hargs =>
    rcases insertPos_ok hi with ⟨hoid, left, right, t, hn, rfl⟩ | ⟨hoid, hpos⟩
    · rw [constructLeid_fits]
      refine ⟨fun hroom pre' ht₂ e₂ left' right' hf' hc' _ hn' => ?_,
        fun hroom => hroom pre ht₁ e₁ left right hf hc hoid hn⟩
      cases hf.symm.trans hf'
      cases hc.symm.trans hc'
      cases hn.symm.trans hn'
      exact hroom
    · have hfit : pos.length ≤ 1024 := h e₁ pos (create_node hc ▸ hpos)
      refine iff_of_true hfit fun pre' ht₂ e₂ left' right' _ hc' hoid' _ => ?_
      cases hc.symm.trans hc'
      exact absurd hoid' hoid

/-! ## The RWF list -/

section Rwfl

variable {r : Fin n} {ht ht' : RwfHt n} {e : Sds} {t : Clock n} {o : LCmd}

theorem rwflRemoveFunc_fits (h : Fits ht) (hr : rwflRemoveFunc ht e t = some ht') : Fits ht' := by
  simp only [rwflRemoveFunc] at hr
  split at hr
  · exact h.setBody_incrLen hr
  · obtain rfl := Option.some.inj hr
    exact h

theorem rwflAddFunc_fits {args : InsertArgs} (h : Fits ht)
    (ha : rwflAddFunc ht e args t = some ht') : Fits ht' := by
  simp only [rwflAddFunc] at ha
  split at ha
  · exact h.setBody_incrLen ha
  · obtain rfl := Option.some.inj ha
    exact h

theorem rwflEffect_fits {m : RwflMsg n} (h : Fits ht) (he : rwflEffect ht m = some ht') :
    Fits ht' := by
  cases m with
  | insert prev id content args pos t =>
    obtain ⟨⟨ht₁, e⟩, hc, he⟩ := Option.bind_eq_some_iff.mp he
    obtain ⟨ht₂, hr, he⟩ := Option.bind_eq_some_iff.mp he
    obtain ⟨ht₃, hi, ha⟩ := Option.bind_eq_some_iff.mp he
    have h₂ := rwflRemoveFunc_fits (h.congr (create_node hc)) hr
    have h₃ : Fits ht₃ := by
      split at hi
      · exact h₂.insertNew hi
      · obtain rfl := Option.some.inj hi
        exact h₂
    exact rwflAddFunc_fits h₃ ha
  | update id type value lt t =>
    obtain ⟨⟨ht₁, e⟩, hc, he⟩ := Option.bind_eq_some_iff.mp he
    obtain ⟨ht₂, hr, rfl⟩ := Option.map_eq_some_iff.mp he
    have h₂ := rwflRemoveFunc_fits (h.congr (create_node hc)) hr
    dsimp only
    split
    · exact h₂.setBody _
    · exact h₂
  | rem id t =>
    obtain ⟨⟨ht₁, e⟩, hc, hr⟩ := Option.bind_eq_some_iff.mp he
    exact rwflRemoveFunc_fits (h.congr (create_node hc)) hr

theorem rwflPrepare_fits {res : Except ReplyErr (RwflMsg n)} (h : Fits ht)
    (hp : rwflPrepare r ht o = some (ht', res)) : Fits ht' := by
  rcases rwflPrepare_cases hp with ⟨rfl, -⟩ | ⟨_, _, _, _, -, hi, -⟩
  · exact h
  · exact h.congr (prepareInsert_node hi)

/-- The identifier of a message of a list that fits. -/
theorem rwflPrepare_fits_iff {m : RwflMsg n} {pos : Leid} (h : Fits ht)
    (hp : rwflPrepare r ht o = some (ht', .ok m)) (hm : m.posId = some pos) :
    pos.length ≤ 1024 ↔ o.Room ht := by
  rcases rwflPrepare_cases hp with ⟨-, hnone⟩ | ⟨prev, id, rand, res', ho, hi, -, hok⟩
  · cases (hnone m rfl).symm.trans hm
  · obtain ⟨prev', e, pos', rfl, hpos⟩ := hok m rfl
    cases hpos.symm.trans hm
    exact h.prepareInsert_iff ho hi

end Rwfl

/-! ## The Remove-Win list -/

section Rl

variable {ht ht' : RlHt n} {e id : Sds} {t : Clock n} {o : LCmd}

theorem rlBegin_node (hb : rlBegin ht id t = some (ht', e)) : ht'.node = ht.node := by
  obtain ⟨ht₁, hc, hb⟩ := Option.bind_eq_some_iff.mp hb
  exact ((create_node hb).trans (setClock_node ..)).trans (getCurrent_node hc)

theorem rlExec_fits {m : RlMsg n} (h : Fits ht) (he : rlExec ht m = some ht') : Fits ht' := by
  cases m with
  | insert prev id content args pos t =>
    obtain ⟨⟨ht₁, e⟩, hb, he⟩ := Option.bind_eq_some_iff.mp he
    obtain ⟨ht₂, hi, ha⟩ := Option.bind_eq_some_iff.mp he
    have h₁ := h.congr (rlBegin_node hb)
    have h₂ : Fits ht₂ := by
      split at hi
      · exact h₁.insertNew hi
      · obtain rfl := Option.some.inj hi
        exact h₁
    exact h₂.setBody_incrLen ha
  | update id type value t =>
    obtain ⟨⟨ht₁, e⟩, hb, rfl⟩ := Option.map_eq_some_iff.mp he
    exact (h.congr (rlBegin_node hb)).setBody _
  | rem id t =>
    obtain ⟨⟨ht₁, e⟩, hb, he⟩ := Option.bind_eq_some_iff.mp he
    exact (h.congr (rlBegin_node hb)).setBody_incrLen he

theorem rlPrepare_fits {res : Except ReplyErr (RlMsg n)} (h : Fits ht)
    (hp : rlPrepare ht o = some (ht', res)) : Fits ht' := by
  rcases rlPrepare_cases hp with ⟨rfl, -⟩ | ⟨-, hc⟩ | ⟨_, _, _, ht₁, _, -, hi, hr⟩
  · exact h
  · exact h.congr (getCurrent_node hc)
  · have h₁ := h.congr (prepareInsert_node hi)
    rcases hr with ⟨_, -, -, rfl⟩ | ⟨-, hc⟩
    · exact h₁
    · exact h₁.congr (getCurrent_node hc)

/-- The identifier of a message of a list that fits. -/
theorem rlPrepare_fits_iff {m : RlMsg n} {pos : Leid} (h : Fits ht)
    (hp : rlPrepare ht o = some (ht', .ok m)) (hm : m.posId = some pos) :
    pos.length ≤ 1024 ↔ o.Room ht := by
  rcases rlPrepare_cases hp with ⟨-, _, hr⟩ | ⟨⟨m', hm', hnone⟩, -⟩ |
    ⟨prev, id, rand, ht₁, res', ho, hi, ⟨_, hr, -⟩ | ⟨⟨m', prev', e, pos', hm', rfl, hpos⟩, -⟩⟩
  · cases hr
  · cases hm'
    cases hnone.symm.trans hm
  · cases hr
  · cases hm'
    cases hpos.symm.trans hm
    exact h.prepareInsert_iff ho hi

end Rl

/-! ## Runs -/

/-- Every command finds room in the list it is issued at. -/
def roomGuard {S M : Type} (list : S → Option (Ht n X)) (s : Sys (Fin n) S M) :
    Ev (Fin n) LCmd → Prop
  | .op r o _ => ∀ ht ∈ list (s.st r), o.Room ht
  | .recv _ _ => True

/-- The identifier that a message carries, if it carries one, fits the buffer. -/
def PosFits (posId : Option Leid) : Prop := ∀ pos ∈ posId, pos.length ≤ 1024

theorem toOption_eq_some {ε α : Type} {res : Except ε α} {a : α} (h : some a = res.toOption) :
    res = .ok a := by
  cases res with
  | error e => cases h
  | ok b => cases h; rfl

section Runs

variable {junk : Fin n → Sds → Normal → BitVec 32}
  {G : Sys (Fin n) (Option (RwfHt n)) (RwflMsg n) → Ev (Fin n) LCmd → Prop}
  {G' : Sys (Fin n) (Option (RlSt n)) (RlMsg n) → Ev (Fin n) LCmd → Prop}

theorem rwfl_fits_iff {s : Sys (Fin n) (Option (RwfHt n)) (RwflMsg n)}
    (hs : (rwflObj n junk).Reach G s) {r : Fin n} {o : LCmd} {x : Option (RwfHt n)} {m : RwflMsg n}
    (hp : (rwflObj n junk).prepare r (s.st r) o = (x, some m)) :
    ∃ ht, s.st r = some ht ∧ ∀ pos ∈ m.posId, (pos.length ≤ 1024 ↔ o.Room ht) := by
  rcases rwflObj_prepare hp with ⟨-, hm⟩ | ⟨ht, ht', res, hst, -, hm, hprep⟩
  · cases hm
  · obtain rfl := toOption_eq_some hm
    have hfits : Fits ht := rwfl_list_rule hs (fun r k y hy => by cases hy) rwflPrepare_fits
      rwflEffect_fits hst
    exact ⟨ht, hst, fun pos hpos => rwflPrepare_fits_iff hfits hprep hpos⟩

theorem rl_fits_iff {s : Sys (Fin n) (Option (RlSt n)) (RlMsg n)} (hs : (rlObj n).Reach G' s)
    {r : Fin n} {o : LCmd} {x : Option (RlSt n)} {m : RlMsg n}
    (hp : (rlObj n).prepare r (s.st r) o = (x, some m)) :
    ∃ y, s.st r = some y ∧ ∀ pos ∈ m.posId, (pos.length ≤ 1024 ↔ o.Room y.ht) := by
  rcases rlObj_prepare hp with ⟨-, hm⟩ | ⟨y, ht', res, hst, -, hm, hprep⟩
  · cases hm
  · obtain rfl := toOption_eq_some hm
    have hfits : Fits y.ht := rl_list_rule hs (fun r k z hz => by cases hz) rlPrepare_fits
      (rlEffect_rule (fun h hc => h.congr (getCurrent_node hc))
        (fun h ho => h.congr (getOps_node ho)) rlExec_fits) hst
    exact ⟨y, hst, fun pos hpos => rlPrepare_fits_iff hfits hprep hpos⟩

/-- The guard of the runs says of the list before a command what the decoder asks of the identifier
that the command sends. -/
theorem rwflGuard_iff_fits {s : Sys (Fin n) (Option (RwfHt n)) (RwflMsg n)}
    (hs : (rwflObj n junk).Reach (rwflGuard junk) s) (r : Fin n) (o : LCmd) (i : ℕ) :
    rwflGuard junk s (.op r o i) ↔ (∀ k ∈ o.names, k ∉ rwflNames) ∧
      ∀ m, ((rwflObj n junk).prepare r (s.st r) o).2 = some m → PosFits m.posId := by
  refine and_congr_right fun ho => ?_
  rcases hp : (rwflObj n junk).prepare r (s.st r) o with ⟨s₁, res⟩
  obtain ⟨ht, ht', hst, -, -, hsd, -, -, hres⟩ :=
    rwflObj_prepare_cases ((rwfl_typed hs).1 r) ho hp
  rcases hres with ⟨rfl, -⟩ | ⟨m, rfl, hsent⟩
  · simp
  · simpa [hst, PosFits] using (hsent.fits_iff hsd).symm

/-- So it is for the Remove-Win list. -/
theorem rlGuard_iff_fits {s : Sys (Fin n) (Option (RlSt n)) (RlMsg n)}
    (hs : (rlObj n).Reach rlGuard s) (r : Fin n) (o : LCmd) (i : ℕ) :
    rlGuard s (.op r o i) ↔ (∀ k ∈ o.names, k ∉ rlNames) ∧
      ∀ m, ((rlObj n).prepare r (s.st r) o).2 = some m → PosFits m.posId := by
  refine and_congr_right fun ho => ?_
  rcases hp : (rlObj n).prepare r (s.st r) o with ⟨s₁, res⟩
  obtain ⟨x, ht', hst, -, htr, -, -, -, -, hres⟩ := rlObj_prepare_cases ((rl_causal hs).2 r) ho hp
  rcases hres with rfl | ⟨m, rfl, hsent⟩
  · simp
  · simpa [hst, PosFits] using (hsent.fits_iff htr.sound).symm

end Runs

/-- **The identifiers of both lists fit where the lists have room.** In any run, the identifier of
the next command fits exactly if the list it is issued at has room for it; so in a run whose
commands find room, every identifier that is broadcast fits. -/
theorem identifiers_fit (junk : Fin n → Sds → Normal → BitVec 32) :
    (∀ s, (rwflObj n junk).Reach anyOrder s → ∀ r ht o x m pos, s.st r = some ht →
      (rwflObj n junk).prepare r (s.st r) o = (x, some m) → m.posId = some pos →
      (pos.length ≤ 1024 ↔ o.Room ht)) ∧
    (∀ s, (rwflObj n junk).Reach (roomGuard id) s →
      ∀ i x, s.log i = some x → PosFits x.2.posId) ∧
    (∀ s, (rlObj n).Reach anyOrder s → ∀ r y o x m pos, s.st r = some y →
      (rlObj n).prepare r (s.st r) o = (x, some m) → m.posId = some pos →
      (pos.length ≤ 1024 ↔ o.Room y.ht)) ∧
    ∀ s, (rlObj n).Reach (roomGuard (Option.map RlSt.ht)) s →
      ∀ i x, s.log i = some x → PosFits x.2.posId := by
  refine ⟨fun s hs r ht o x m pos hst hp hpos => ?_, fun s hs => ?_,
    fun s hs r y o x m pos hst hp hpos => ?_, fun s hs => ?_⟩
  · obtain ⟨ht', hst', hiff⟩ := rwfl_fits_iff hs hp
    cases hst.symm.trans hst'
    exact hiff pos hpos
  · have hmsg := hs.msg_rule (Q := fun _ (m : RwflMsg n) => PosFits m.posId) ?_
    · exact fun i x hx => hmsg i x.1 x.2 hx
    · intro s r o i s₁ m hs hg hp pos hpos
      obtain ⟨ht, hst, hiff⟩ := rwfl_fits_iff hs hp
      exact (hiff pos hpos).mpr (hg ht hst)
  · obtain ⟨y', hst', hiff⟩ := rl_fits_iff hs hp
    cases hst.symm.trans hst'
    exact hiff pos hpos
  · have hmsg := hs.msg_rule (Q := fun _ (m : RlMsg n) => PosFits m.posId) ?_
    · exact fun i x hx => hmsg i x.1 x.2 hx
    · intro s r o i s₁ m hs hg hp pos hpos
      obtain ⟨y, hst, hiff⟩ := rl_fits_iff hs hp
      exact (hiff pos hpos).mpr (hg y.ht (by rw [hst]; rfl))

/-- A test for `LCmd.Room`: the neighbours leave one position of the buffer free. -/
def LCmd.roomOk (ht : Ht n X) : LCmd → Bool
  | .insert _ prev id .. => (ht.find prev).all fun pre => (ht.create id).all fun x =>
      (x.1.node x.2).oid.isSome || (x.1.neighbours pre).all fun y =>
        y.1.all (·.length < 1024) && y.2.all (·.length < 1024)
  | .update .. | .rem .. => true

theorem LCmd.room_of_ok {ht : Ht n X} {o : LCmd} (h : o.roomOk ht = true) : o.Room ht := by
  cases o with
  | insert argc prev id content font size color property rand =>
    intro pre ht₁ e left right hf hc hoid hn
    simp only [LCmd.roomOk, hf, hc, hn, hoid, Option.all_some, Option.isSome_none, Bool.false_or,
      Bool.and_eq_true, Option.all_eq_true, decide_eq_true_eq] at h
    exact roomInBuffer_of_length h.1 h.2
  | update argc id type value => trivial
  | rem argc id => trivial

/-- A test for `roomGuard`. -/
def roomGuardOk {S M : Type} (list : S → Option (Ht n X)) (s : Sys (Fin n) S M) :
    Ev (Fin n) LCmd → Bool
  | .op r o _ => (list (s.st r)).all fun ht => o.roomOk ht
  | .recv _ _ => true

theorem roomGuard_of_ok {S M : Type} {list : S → Option (Ht n X)} (s : Sys (Fin n) S M)
    (e : Ev (Fin n) LCmd) (h : roomGuardOk list s e = true) : roomGuard list s e := by
  cases e with
  | op r o i => exact fun ht hht => LCmd.room_of_ok ((Option.all_eq_true _ _).mp h ht hht)
  | recv r i => trivial

/-- An insert in front of another one, and inserts between the two at both replicas. -/
def fitsDemo : List (Ev (Fin 2) LCmd) :=
  let a : Sds := "a".toList
  let b : Sds := "b".toList
  let after (p id : Sds) (rand : ℕ) : LCmd :=
    .insert 9 p id "c".toList (some 1) (some 1) (some 1) (some 0) rand
  [.op 0 (insertFront a 0) 0, .op 0 (insertFront b 3) 1, .recv 1 0, .recv 1 1,
    .op 1 (after b "d".toList 0) 2, .op 0 (after b "e".toList 5) 3, .recv 0 2,
    .op 0 (after "e".toList "f".toList 0) 4]

/-- The numbers of positions of the identifiers of `fitsDemo` that are sent. -/
def sentLengths {S M : Type} (posId : M → Option Leid) (s : Sys (Fin 2) S M) : List (Option ℕ) :=
  (List.range 5).map fun i => ((s.log i).bind fun x => posId x.2).map List.length

/-- The condition holds of runs of both lists whose inserts have neighbours on one side, on both or
on none. -/
theorem identifiers_fit_between :
    let s := (rwflObj 2 fun _ _ _ => 0).runOf fitsDemo
    let s' := (rlObj 2).runOf fitsDemo
    (sentLengths RwflMsg.posId s = [some 1, some 2, some 2, some 2, some 2] ∧
      ∀ i x, s.log i = some x → PosFits x.2.posId) ∧
    sentLengths RlMsg.posId s' = [some 1, some 2, some 2, some 2, some 2] ∧
      ∀ i x, s'.log i = some x → PosFits x.2.posId :=
  have h := identifiers_fit (n := 2) fun _ _ _ => 0
  ⟨⟨by decide +kernel, h.2.1 _ (Obj.reach_runOf roomGuard_of_ok fitsDemo (by decide +kernel))⟩,
    by decide +kernel, h.2.2.2 _ (Obj.reach_runOf roomGuard_of_ok fitsDemo (by decide +kernel))⟩

/-- **Inserts in front outgrow the buffer**, in either list. -/
theorem identifiers_outgrow :
    (∃ s, (rwflObj 1 fun _ _ _ => 0).Reach anyOrder s ∧
      ∃ i x, s.log i = some x ∧ ¬ PosFits x.2.posId) ∧
    ∃ s, (rlObj 1).Reach anyOrder s ∧ ∃ i x, s.log i = some x ∧ ¬ PosFits x.2.posId := by
  constructor
  · obtain ⟨s, ht', m, hs, hlog, hp, -, -, pos, hpos, hlen⟩ := rwfl_overflow fun _ _ _ => 0
    have hfree := log_next hlog
    refine ⟨(rwflObj 1 fun _ _ _ => 0).issue s 0 1024 (some ht') m,
      .step (.op 0 (insertFront (frontId 1024) 0) 1024) (hs.mono fun _ _ _ => trivial) trivial ?_,
      1024, (0, m), by simp, fun hfit => absurd (hfit pos hpos) (by omega)⟩
    simp only [Obj.step, hp, hfree]
    rfl
  · obtain ⟨s, x, m, hs, hlog, hp, -, -, pos, hpos, hlen⟩ := rl_overflow
    have hfree := log_next hlog
    refine ⟨(rlObj 1).issue s 0 1024 (some x) m,
      .step (.op 0 (insertFront (frontId 1024) 0) 1024) (hs.mono fun _ _ _ => trivial) trivial ?_,
      1024, (0, m), by simp, fun hfit => absurd (hfit pos hpos) (by omega)⟩
    simp only [Obj.step, hp, hfree]
    rfl

end CrdtRedis
