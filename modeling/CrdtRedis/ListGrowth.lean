import CrdtRedis.ListFrame
import CrdtRedis.RList.Convergence
import CrdtRedis.RwfList.Order

/-!
# Identifiers that outgrow the decoder's buffer

Every insert in front with the random part `0` makes an identifier that is longer by one than that
of the first element (`Deep.front`). After 1024 of them the next insert is still accepted, and its
identifier does not fit the buffer into which `sdsToLeid` writes the positions: the effect phase,
at the replica of the client itself, has no result.

* `Front k`: a list after `k` inserts in front.
* `rwfl_overflow`, `rl_overflow`: the run, with names that the lists can take.
-/

namespace CrdtRedis

open Broadcast Linked

/-! ## The identifiers -/

/-- The identifier of the first of `k` elements, each of them put in front. -/
def Deep (k : ℕ) : Option Leid → Prop
  | none => k = 0
  | some q => q.length = k ∧ (∀ x ∈ q, x.pos < 2) ∧ q.Wf

section

variable {n k : ℕ} {o : Option Leid} {q : Leid}

/-- There is no room on the left at any level. -/
theorem searchLevel_front (hq : ∀ x ∈ q, x.pos < 2) (f i : ℕ) (h : i + f = q.length) :
    searchLevel none (some q) f i = q.length := by
  induction f generalizing i with
  | zero => exact h
  | succ f ih =>
    have hi : i < q.length := by omega
    have hx := hq q[i] (List.getElem_mem hi)
    have hroom : rprefix (some q) i - lprefix none i < 2 := by
      unfold rprefix lprefix
      simpa [List.getElem?_eq_getElem hi] using hx
    simp only [searchLevel, if_pos hroom]
    exact ih (i + 1) (by omega)

theorem newLevel_front (h : Deep k o) : newLevel none o = k := by
  cases o with
  | none => exact h.symm
  | some q =>
    obtain ⟨hlen, hpos, -⟩ := h
    simpa [newLevel, hlen] using searchLevel_front hpos q.length 0 (Nat.zero_add _)

/-- An identifier in front is longer by one. -/
theorem Deep.front (h : Deep k o) (t : Clock n) :
    Deep (k + 1) (some (constructLeid none o t 0)) := by
  have hwf : (constructLeid none o t 0).Wf := constructLeid_wf (by simp)
  have hright : rprefix o k = BASE := by
    cases o with
    | none => rfl
    | some q => exact (prefix_of_le h.1.le).2
  refine ⟨?_, fun x hx => ?_, hwf⟩
  · simp [constructLeid, newLevel_front h]
  · simp only [constructLeid, newLevel_front h, hright, Option.bind_none, Option.getD_none] at hx
    rcases List.mem_append.mp hx with hx | hx
    · obtain ⟨i, -, rfl⟩ := List.mem_map.mp hx
      decide
    · rw [List.mem_singleton.mp hx]
      change (0 : ℤ) + newStep (BASE - 0 - 2) 0 + 1 < 2
      decide

theorem Deep.lt (h : Deep k o) (t : Clock n) :
    ∀ y ∈ o, leidCmp (constructLeid none o t 0) y < 0 := by
  rintro y rfl
  exact leidCmp_lt_zero.mpr (constructLeid_lt (by simp) h.2.2)

end

/-! ## The lists -/

/-- The name of the element of the `k`-th insert. -/
def frontId (k : ℕ) : Sds := List.replicate (k + 1) 'a'

theorem frontId_injective : Function.Injective frontId := by
  intro i j h
  have := congrArg List.length h
  simpa [frontId] using this

theorem frontId_notMem {N : List Sds} (k : ℕ) (hN : ∀ p ∈ N, p.head? ≠ some 'a') :
    frontId k ∉ N :=
  fun h => hN _ h rfl

theorem frontId_ne_null (k : ℕ) : frontId k ≠ nullWord := fun h =>
  absurd (show some 'a' = nullWord.head? from congrArg List.head? h) (by decide)

theorem frontId_not_word {w : Sds} (k : ℕ) (hw : (w.takeWhile (· ≠ '\x00')).head? ≠ some 'a') :
    strEq (frontId k) w = false :=
  decide_eq_false fun h => hw (h ▸ rfl)

namespace Ht

variable {n k : ℕ} {X : Type} {N : List Sds} {present : X → Bool} {ht ht' : Ht n X}

/-- The identifier of the first element. -/
def headPos (ht : Ht n X) : Option Leid := ht.headD.bind fun q => (ht.node q).posId

theorem SameList.headPos (hs : SameList ht ht') : ht'.headPos = ht.headPos := by
  rw [Ht.headPos, hs.head, hs.node, Ht.headPos]

/-- A list after `k` inserts in front. -/
structure Front (N : List Sds) (present : X → Bool) (k : ℕ) (ht : Ht n X) : Prop where
  typed : Typed N ht
  sound : Sound ht
  listed : ∃ l, Listed ht l
  head : Deep k ht.headPos
  null : nullWord ∉ ht.alloc
  fresh : ∀ j, k ≤ j → (ht.node (frontId j)).oid = none ∧
    present (ht.node (frontId j)).body = false

/-- Where an element with a smaller identifier than the first one goes if `prev` has no place. -/
theorem Placed.eq_cons {x : Leid} {prev e : Sds} {l l' : List Sds} (h : Placed ht x prev e l l')
    (hl : Listed ht l) (hprev : (ht.node prev).posId = none)
    (hx : ∀ y ∈ ht.headPos, leidCmp x y < 0) : l' = e :: l := by
  cases h with
  | front _ _ => rfl
  | after c s a b hs _ _ =>
    have hmem : (ht.node s).posId.isSome := (hl.mem s).mp (by simp)
    rcases hs with rfl | ⟨rfl, y, hy, hlt⟩
    · simp [hprev] at hmem
    · have hhead : ht.headD = some s := hl.chain.head_eq
      exact absurd (hx y (by simp [headPos, hhead, hy])) hlt

namespace Front

theorem null_posId (h : Front N present k ht) : (ht.node nullWord).posId = none := by
  by_contra hne
  exact h.null (h.sound.alloc _ (Option.isSome_iff_ne_none.mpr hne))

theorem start {r : Fin n} {x : Sds → X} (hN : headKey ∈ N ∧ lengthKey ∈ N ∧ currentKey ∈ N)
    (hx : ∀ k, present (x k) = false) : Front N present 0 (Ht.new r x) :=
  ⟨.new hN, .new, ⟨[], .new⟩, rfl, by simp [Ht.new], fun _ _ => ⟨rfl, hx _⟩⟩

theorem same (h : Front N present k ht) (h' : Typed N ht') (hs : SameList ht ht')
    (ha : ∀ p ∈ ht'.alloc, p = frontId k ∨ p ∈ ht.alloc) : Front N present k ht' := by
  obtain ⟨l, hl⟩ := h.listed
  refine ⟨h', hs.kept.sound h.sound, ⟨l, hs.kept.listed hl⟩, ?_, fun hn => ?_, ?_⟩
  · rw [hs.headPos]
    exact h.head
  · exact (ha _ hn).elim (fun he => frontId_ne_null k he.symm) h.null
  · rw [hs.node]
    exact h.fresh

/-- Before the 1025th insert the list has room for the next. -/
theorem findsRoom (h : Front N present k ht) (hk : k < 1024) (id : Sds) :
    (insertFront id 0).FindsRoom ht := by
  intro _
  have hright : ht.rightOf nullWord = ht.headPos := by
    rw [rightOf, h.null_posId, headPos]
    rfl
  have hfit : (constructLeid none ht.headPos ht.clock 0).length ≤ 1024 := by
    rw [(h.head.front ht.clock).1]
    exact hk
  show RoomInBuffer (ht.node nullWord).posId (ht.rightOf nullWord)
  rw [h.null_posId, hright]
  exact constructLeid_fits.mp hfit

/-- The prepare phase of the next insert accepts it. -/
theorem prepare (h : Front N present k ht) (tick : Clock n → Clock n) (hN : nullWord ∉ N)
    (hid : frontId k ∉ N) :
    ∃ ht', Front N present k ht' ∧ ht'.clock = tick ht.clock ∧
      ht.prepareInsert present tick nullWord (frontId k) 0 =
        some (ht', .ok (nullWord, frontId k, constructLeid none ht'.headPos ht.clock 0)) := by
  obtain ⟨hoid, hpres⟩ := h.fresh k le_rfl
  have htd := h.typed.withEle hid
  have hsame := ((SameList.withEle h.typed hid).trans (.withClock _)).trans
    (.setClock _ (tick ht.clock))
  refine ⟨_, h.same (htd.withClock.setClock _) hsame fun p hp =>
    (h.typed.mem_withEle hid).mp hp, rfl, ?_⟩
  rw [hsame.headPos]
  simp [Ht.prepareInsert, h.typed.find_eq hN, h.null, h.typed.create_eq hid, insertPos, hoid, hpres,
    neighbours, htd.getHead_eq, htd.getCurrent_eq, withEle_headD (h.typed.ne_head hid), headPos,
    show sdstolower nullWord = nullWord by decide, show strEq nullWord nullWord = true by decide,
    show strEq nullWord readdWord = false by decide]

/-- The next insert. -/
theorem added (h : Front N present k ht) (h' : Typed N ht') (hs' : Sound ht') {content : Sds}
    {t : Clock n}
    (hadd : Added ht ht' nullWord (frontId k) content (constructLeid none ht.headPos t 0))
    (ha : ∀ p ∈ ht'.alloc, p = frontId k ∨ p ∈ ht.alloc)
    (hb : ∀ p, p ≠ frontId k → (ht'.node p).body = (ht.node p).body) :
    Front N present (k + 1) ht' := by
  obtain ⟨l, hl⟩ := h.listed
  obtain ⟨l', hl', hp⟩ := hadd.listed l hl (frontId_ne_null k).symm
  obtain rfl := hp.eq_cons hl h.null_posId (h.head.lt t)
  have hpos : (ht'.node (frontId k)).posId = some (constructLeid none ht.headPos t 0) := by
    have := congrFun hadd.posId (frontId k)
    rwa [Function.update_self] at this
  refine ⟨h', hs', ⟨_, hl'⟩, ?_, fun hn => ?_, fun j hj => ?_⟩
  · rw [headPos, show ht'.headD = some (frontId k) from hl'.chain.head_eq, Option.bind_some, hpos]
    exact h.head.front t
  · exact (ha _ hn).elim (fun he => frontId_ne_null k he.symm) h.null
  · have hne : frontId j ≠ frontId k := fun he => by
      have := frontId_injective he
      omega
    have hoid : (ht'.node (frontId j)).oid = _ := congrFun hadd.oid (frontId j)
    rw [hoid, Function.update_of_ne hne, hb _ hne]
    exact h.fresh j (by omega)

end Front

/-- An identifier that the buffer does not hold. -/
theorem insertNew_none {e id content prev : Sds} {pos : Leid} (h : 1024 < pos.length) :
    ht.insertNew e id content prev pos = none := by
  simp [insertNew, readLeid, Nat.not_le.mpr h]

end Ht

open Ht

/-! ## The runs -/

theorem insertFront_names {N : List Sds} {id : Sds} {rand : ℕ} (hN : nullWord ∉ N) (hid : id ∉ N) :
    ∀ k ∈ (insertFront id rand).names, k ∉ N := by
  intro k hk
  rcases List.mem_cons.mp hk with rfl | hk
  · exact hN
  · rw [List.mem_singleton.mp hk]
    exact hid

/-- The place in the log after `k` messages is free. -/
theorem log_next {S M : Type} {s : Sys (Fin 1) S M} {k : ℕ} {Q : ℕ → Fin 1 × M → Prop}
    (hlog : ∀ j x, s.log j = some x → j < k ∧ Q j x) : s.log k = none := by
  by_contra hne
  obtain ⟨x, hx⟩ := Option.ne_none_iff_exists'.mp hne
  exact absurd (hlog k x hx).1 (lt_irrefl k)

/-- One replica issues the commands `o 0`, `o 1`, ..., and every message names its element. -/
theorem front_run {S M : Type} {P : Obj (Fin 1) S LCmd M}
    {G : Sys (Fin 1) S M → Ev (Fin 1) LCmd → Prop}
    (name : M → Sds) (ok : ℕ → S → Prop) (K : ℕ) (init : ok 0 (P.init 0))
    (step : ∀ k < K, ∀ s : Sys (Fin 1) S M,
      (∀ j x, s.log j = some x → j < k ∧ name x.2 = frontId j) → ok k (s.st 0) →
      G s (.op 0 (insertFront (frontId k) 0) k) ∧
      ∃ s₁ m, P.prepare 0 (s.st 0) (insertFront (frontId k) 0) = (s₁, some m) ∧
        name m = frontId k ∧ ok (k + 1) (P.effect 0 s₁ m)) :
    ∀ k ≤ K, ∃ s, P.Reach G s ∧ ok k (s.st 0) ∧
      ∀ j x, s.log j = some x → j < k ∧ name x.2 = frontId j := by
  intro k
  induction k with
  | zero => exact fun _ => ⟨P.start, .start, init, fun j x hx => by cases hx⟩
  | succ k ih =>
    intro hk
    obtain ⟨s, hs, hok, hlog⟩ := ih (by omega)
    obtain ⟨hg, s₁, m, hp, hname, hok'⟩ := step k hk s hlog hok
    have hnone := log_next hlog
    refine ⟨P.issue s 0 k s₁ m, .step _ hs hg (by simp [Obj.step, hp, hnone]), ?_, ?_⟩
    · simpa using hok'
    · intro j x hx
      rcases Obj.issue_log_cases hx with ⟨rfl, rfl⟩ | ⟨-, hx⟩
      · exact ⟨by omega, hname⟩
      · have := hlog j x hx
        exact ⟨by omega, this.2⟩

section Rwfl

variable {k : ℕ} {ht : RwfHt 1} {m : RwflMsg 1}

/-- A replica after `k` inserts in front. -/
def RwflFront (k : ℕ) (s : Option (RwfHt 1)) : Prop :=
  ∃ ht, s = some ht ∧ Front rwflNames (fun x => x.header.exists) k ht

/-- The next insert in front of `ht`. -/
def RwflMsg.Fronts (k : ℕ) (ht : RwfHt 1) (m : RwflMsg 1) : Prop :=
  ∃ content args, ∃ c t : Clock 1,
    m = .insert nullWord (frontId k) content args (constructLeid none ht.headPos c 0) t

/-- The next insert is accepted. -/
theorem rwflPrepare_front (h : Front rwflNames (fun x => x.header.exists) k ht) :
    ∃ ht' m, Front rwflNames (fun x => x.header.exists) k ht' ∧ m.Fronts k ht' ∧
      rwflPrepare 0 ht (insertFront (frontId k) 0) = some (ht', .ok m) := by
  obtain ⟨ht', hf, -, hp⟩ := h.prepare (vcInc · 0) (by decide) (frontId_notMem k (by decide))
  refine ⟨ht', _, hf, ⟨"c".toList, ⟨1, 1, 1, 0⟩, ht.clock,
    (ht'.node (frontId k)).body.header.current, rfl⟩, ?_⟩
  change Option.map _ (ht.prepareInsert _ _ nullWord (frontId k) 0) = _
  rw [hp]
  rfl

/-- Its message can be applied while the identifier fits the buffer. -/
theorem rwflEffect_front (h : Front rwflNames (fun x => x.header.exists) k ht) (hk : k < 1024)
    (hm : m.Fronts k ht) : ∃ ht', rwflEffect ht m = some ht' ∧
      Front rwflNames (fun x => x.header.exists) (k + 1) ht' := by
  obtain ⟨content, args, c, t, rfl⟩ := hm
  have hid : frontId k ∉ rwflNames := frontId_notMem k (by decide)
  obtain ⟨ht', he, hstep⟩ := rwflEffect_step h.typed h.sound
    (m := .insert nullWord (frontId k) content args (constructLeid none ht.headPos c 0) t)
    ⟨by decide, hid, by rw [(h.head.front c).1]; exact hk⟩
  have ha := (rwflEffect_entries h.typed (by exact hid) he).1
  refine ⟨ht', he, h.added hstep.typed hstep.sound (hstep.place.2 (h.fresh k le_rfl).1)
    (fun p hp => (ha p).mp hp) fun p hp => ?_⟩
  rw [hstep.body]
  exact if_neg hp

/-- After 1024 inserts it does not fit. -/
theorem rwflEffect_overflow (h : Front rwflNames (fun x => x.header.exists) k ht)
    (hk : 1024 ≤ k) (hm : m.Fronts k ht) : rwflEffect ht m = none := by
  obtain ⟨content, args, c, t, rfl⟩ := hm
  have hid : frontId k ∉ rwflNames := frontId_notMem k (by decide)
  obtain ⟨ht₁, hr, hrem⟩ := withEle_remove_spec h.typed hid t
  have hoid : (ht₁.node (frontId k)).oid = none := by
    rw [hrem.kept.oid]
    exact (h.fresh k le_rfl).1
  have hlen : 1024 < (constructLeid none ht.headPos c 0).length := by
    rw [(h.head.front c).1]
    omega
  simp [rwflEffect, h.typed.create_eq hid, hr, hoid, insertNew_none hlen]

/-- The next insert is one that the guard allows, and it leaves the list ready for the one after. -/
theorem rwfl_front_step {junk : Fin 1 → Sds → Normal → BitVec 32} (hk : k < 1024)
    {s : Sys (Fin 1) (Option (RwfHt 1)) (RwflMsg 1)}
    (hlog : ∀ j x, s.log j = some x → j < k ∧ x.2.id = frontId j) (h : RwflFront k (s.st 0)) :
    rwflListGuard junk s (.op 0 (insertFront (frontId k) 0) k) ∧
    ∃ s₁ m, (rwflObj 1 junk).prepare 0 (s.st 0) (insertFront (frontId k) 0) = (s₁, some m) ∧
      m.id = frontId k ∧ RwflFront (k + 1) ((rwflObj 1 junk).effect 0 s₁ m) := by
  obtain ⟨ht, hst, hf⟩ := h
  obtain ⟨ht', m, hf', hm, hp⟩ := rwflPrepare_front hf
  obtain ⟨ht₂, he, hf₂⟩ := rwflEffect_front hf' hk hm
  have hprep : (rwflObj 1 junk).prepare 0 (s.st 0) (insertFront (frontId k) 0) =
      (some ht', some m) := by simp [rwflObj, hst, hp, Except.toOption]
  have hid : m.id = frontId k := by
    obtain ⟨content, args, c, t, rfl⟩ := hm
    rfl
  refine ⟨⟨⟨?_, ?_⟩, ?_, ?_⟩, _, m, hprep, hid, ht₂, he, hf₂⟩
  · exact insertFront_names (by decide) (frontId_notMem k (by decide))
  · intro _ ht₁ hst₁
    obtain rfl := Option.some.inj (hst.symm.trans hst₁)
    exact hf.findsRoom hk _
  · intro m' hm' _ q j _ o' x hx _ heq
    rw [hprep] at hm'
    cases hm'
    have hj := hlog j _ hx
    have := frontId_injective (hj.2.symm.trans (heq.trans hid))
    omega
  · intro m' hm' _
    rw [hprep] at hm'
    cases hm'
    rw [hid]
    exact ⟨frontId_not_word k (by decide), frontId_not_word k (by decide)⟩

/-- **The identifiers of the RWF list outgrow the buffer**: after 1024 inserts in front the next
one is accepted, its identifier does not fit, and its effect phase has no result. -/
theorem rwfl_overflow (junk : Fin 1 → Sds → Normal → BitVec 32) :
    ∃ s ht' m, (rwflObj 1 junk).Reach (rwflListGuard junk) s ∧
      (∀ j x, s.log j = some x → j < 1024 ∧ x.2.id = frontId j) ∧
      (rwflObj 1 junk).prepare 0 (s.st 0) (insertFront (frontId 1024) 0) = (some ht', some m) ∧
      m.Fronts 1024 ht' ∧ (rwflObj 1 junk).effect 0 (some ht') m = none ∧
      ∃ pos ∈ m.posId, 1024 < pos.length := by
  obtain ⟨s, hs, ⟨ht, hst, hf⟩, hlog⟩ := front_run RwflMsg.id RwflFront 1024
    ⟨_, rfl, .start (by decide) fun _ => rfl⟩ (fun _ hk _ => rwfl_front_step hk) 1024 le_rfl
  obtain ⟨ht', m, hf', hm, hp⟩ := rwflPrepare_front hf
  refine ⟨s, ht', m, hs, hlog, by simp [rwflObj, hst, hp, Except.toOption], hm,
    rwflEffect_overflow hf' le_rfl hm, ?_⟩
  obtain ⟨content, args, c, t, rfl⟩ := hm
  exact ⟨_, rfl, by rw [(hf'.head.front c).1]; decide⟩

end Rwfl

section Rl

variable {k : ℕ} {x : RlSt 1} {ht : RlHt 1} {m : RlMsg 1}

/-- A replica after `k` inserts in front. -/
def RlFront (k : ℕ) (s : Option (RlSt 1)) : Prop :=
  ∃ x, s = some x ∧ x.ops = [] ∧ Front rlNames RwSets.lookup k x.ht

/-- The next insert in front of `ht`. -/
def RlMsg.Fronts (k : ℕ) (ht : RlHt 1) (m : RlMsg 1) : Prop :=
  ∃ content args, ∃ c : Clock 1, m = .insert nullWord (frontId k) content args
    (constructLeid none ht.headPos c 0) (vcNow ht.clock)

/-- The next insert is accepted. -/
theorem rlPrepare_front (h : Front rlNames RwSets.lookup k ht) :
    ∃ ht' m, Front rlNames RwSets.lookup k ht' ∧ m.Fronts k ht' ∧
      rlPrepare ht (insertFront (frontId k) 0) = some (ht', .ok m) := by
  obtain ⟨ht', hf, -, hp⟩ := h.prepare (fun c => c) (by decide) (frontId_notMem k (by decide))
  have hsame := SameList.withClock ht'
  refine ⟨ht'.withClock, _, hf.same hf.typed.withClock hsame fun _ h => .inr h,
    ⟨"c".toList, ⟨1, 1, 1, 0⟩, ht.clock, rfl⟩, ?_⟩
  change Option.bind (ht.prepareInsert _ _ nullWord (frontId k) 0) _ = _
  rw [hp]
  change Option.map _ ht'.getCurrent = _
  rw [hf.typed.getCurrent_eq, hsame.headPos]
  rfl

/-- A command's own operation is ready. -/
theorem vcCausallyReady_vcNow {n : ℕ} (c : Clock n) : vcCausallyReady c (vcNow c) = true := by
  refine Bool.and_eq_true_iff.mpr ⟨decide_eq_true fun i hi => ?_, by simp [vcNow]⟩
  have hne : i ≠ c.id := hi
  simp [vcNow, Function.update_of_ne hne]

/-- Its message can be applied while the identifier fits the buffer. -/
theorem rlEffect_front (h : Front rlNames RwSets.lookup k x.ht) (hops : x.ops = []) (hk : k < 1024)
    (hm : m.Fronts k x.ht) : RlFront (k + 1) (rlEffect x m) := by
  obtain ⟨content, args, c, rfl⟩ := hm
  have hid : frontId k ∉ rlNames := frontId_notMem k (by decide)
  have hsame := SameList.withClock x.ht
  have hf : Front rlNames RwSets.lookup k x.ht.withClock :=
    h.same h.typed.withClock hsame fun _ h => .inr h
  obtain ⟨ht₁, he, hstep⟩ := rlExec_step hf.typed hf.sound
    (m := .insert nullWord (frontId k) content args (constructLeid none x.ht.headPos c 0)
      (vcNow x.ht.clock))
    ⟨by decide, hid, by rw [(h.head.front c).1]; exact hk⟩
  have ha := (rlExec_entries hf.typed (by exact hid) he).1
  have hadd := hstep.place.2 (hf.fresh k le_rfl).1
  rw [← hsame.headPos] at hadd
  have hf₁ : Front rlNames RwSets.lookup (k + 1) ht₁ :=
    hf.added hstep.typed hstep.sound hadd (fun p hp => (ha p).mp hp) fun p hp => by
      rw [hstep.body]
      exact if_neg hp
  -- The buffer is empty, so that only the entries of the buffer and the clock are made.
  have htd := hstep.typed.withOps (by decide)
  refine ⟨⟨ht₁.withOps.withClock, [], x.hist ++ [.insert nullWord (frontId k) content args
    (constructLeid none x.ht.headPos c 0) (vcNow x.ht.clock)]⟩, ?_, rfl,
    hf₁.same htd.withClock ((SameList.withOps _).trans (.withClock _)) fun _ h => .inr h⟩
  simp [rlEffect, h.typed.getCurrent_eq, RlMsg.t, vcCausallyReady_vcNow, RlSt.exec, he, rlNotify,
    hops, hstep.typed.getOps_eq (by decide), htd.getCurrent_eq, drain]

/-- After 1024 inserts it does not fit. -/
theorem rlEffect_overflow (h : Front rlNames RwSets.lookup k x.ht) (hk : 1024 ≤ k)
    (hm : m.Fronts k x.ht) : rlEffect x m = none := by
  obtain ⟨content, args, c, rfl⟩ := hm
  obtain ⟨ht₁, hb, hbeg⟩ := rlBegin_spec h.typed.withClock (frontId_notMem k (by decide))
    (vcNow x.ht.clock)
  have hoid : (ht₁.node (frontId k)).oid = none := by
    rw [hbeg.same.node]
    exact (h.fresh k le_rfl).1
  have hlen : 1024 < (constructLeid none x.ht.headPos c 0).length := by
    rw [(h.head.front c).1]
    omega
  simp [rlEffect, h.typed.getCurrent_eq, RlMsg.t, vcCausallyReady_vcNow, RlSt.exec, rlExec,
    rlInsertFunc, hb, hoid, insertNew_none hlen]

/-- The next insert is one that the guard allows, and it leaves the list ready for the one after. -/
theorem rl_front_step (hk : k < 1024) {s : Sys (Fin 1) (Option (RlSt 1)) (RlMsg 1)}
    (hlog : ∀ j x, s.log j = some x → j < k ∧ x.2.id = frontId j) (h : RlFront k (s.st 0)) :
    rlListGuard s (.op 0 (insertFront (frontId k) 0) k) ∧
    ∃ s₁ m, (rlObj 1).prepare 0 (s.st 0) (insertFront (frontId k) 0) = (s₁, some m) ∧
      m.id = frontId k ∧ RlFront (k + 1) ((rlObj 1).effect 0 s₁ m) := by
  obtain ⟨x, hst, hops, hf⟩ := h
  obtain ⟨ht', m, hf', hm, hp⟩ := rlPrepare_front hf
  have he : RlFront (k + 1) (rlEffect { x with ht := ht' } m) := rlEffect_front hf' hops hk hm
  have hprep : (rlObj 1).prepare 0 (s.st 0) (insertFront (frontId k) 0) =
      (some { x with ht := ht' }, some m) := by simp [rlObj, hst, hp, Except.toOption]
  have hid : m.id = frontId k := by
    obtain ⟨content, args, c, rfl⟩ := hm
    rfl
  refine ⟨⟨⟨?_, ?_⟩, ?_, ?_⟩, _, m, hprep, hid, he⟩
  · exact insertFront_names (by decide) (frontId_notMem k (by decide))
  · intro _ x₁ hst₁
    obtain rfl := Option.some.inj (hst.symm.trans hst₁)
    exact hf.findsRoom hk _
  · rintro m' hm' _ q m'' ⟨j, -, o, hj⟩ _ heq
    rw [hprep] at hm'
    cases hm'
    have hlt := hlog j _ hj
    have := frontId_injective (hlt.2.symm.trans (heq.trans hid))
    omega
  · intro m' hm' _
    rw [hprep] at hm'
    cases hm'
    rw [hid]
    exact frontId_not_word k (by decide)

/-- **The identifiers of the Remove-Win list outgrow the buffer** in the same way. -/
theorem rl_overflow :
    ∃ s x m, (rlObj 1).Reach rlListGuard s ∧
      (∀ j x, s.log j = some x → j < 1024 ∧ x.2.id = frontId j) ∧
      (rlObj 1).prepare 0 (s.st 0) (insertFront (frontId 1024) 0) = (some x, some m) ∧
      m.Fronts 1024 x.ht ∧ (rlObj 1).effect 0 (some x) m = none ∧
      ∃ pos ∈ m.posId, 1024 < pos.length := by
  obtain ⟨s, hs, ⟨x, hst, -, hf⟩, hlog⟩ := front_run RlMsg.id RlFront 1024
    ⟨_, rfl, rfl, .start (by decide) fun _ => rfl⟩ (fun _ hk _ => rl_front_step hk) 1024 le_rfl
  obtain ⟨ht', m, hf', hm, hp⟩ := rlPrepare_front hf
  refine ⟨s, { x with ht := ht' }, m, hs, hlog, by simp [rlObj, hst, hp, Except.toOption], hm,
    rlEffect_overflow (x := { x with ht := ht' }) hf' le_rfl hm, ?_⟩
  obtain ⟨content, args, c, rfl⟩ := hm
  exact ⟨_, rfl, by rw [(hf'.head.front c).1]; decide⟩

end Rl

end CrdtRedis
