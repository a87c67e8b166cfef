import CrdtRedis.RList.Model
import CrdtRedis.RwfList.Convergence

/-!
# The names of elements and the list's own entries

A client may give an element any name, and the table of a list has entries of its own: `head`,
`length`, `current` and, in the Remove-Win list, `ops`. Here is what one command or message leaves
alone: what is found under the names that it does not name, the links apart (`Framed`), and the
list's own entries, except as the algorithm changes them.

* `rwflEffect_frame`, `rlExec_frame`: the frame of one message.
* `rlEffect_frame`: an effect phase of the Remove-Win list applies the message and operations of
  the buffer, one after the other.
* `lists_frame`: in every run whose commands name none of the list's own entries, every list has
  these frames.
* `head_finds_other`: with a command on the element `head` it has not.
-/

namespace CrdtRedis

open Broadcast Linked

variable {n : ℕ} {X : Type}

/-- The element that a command is about. -/
def LCmd.id : LCmd → Sds
  | .insert _ _ id .. | .update _ id .. | .rem _ id => id

namespace Ht

variable {N ids ids' : List Sds} {ht ht₁ ht₂ ht' : Ht n X} {k e id content prev : Sds} {pos : Leid}

/-! ## What the names lead to -/

/-- The names other than `ids` lead where they led, to the same elements, whose links may
change. -/
structure Framed (N ids : List Sds) (ht ht' : Ht n X) : Prop where
  find : ∀ k ∉ N, k ∉ ids → ht'.find k = ht.find k
  oid : ∀ k ∉ ids, (ht'.node k).oid = (ht.node k).oid
  posId : ∀ k ∉ ids, (ht'.node k).posId = (ht.node k).posId
  content : ∀ k ∉ ids, (ht'.node k).content = (ht.node k).content
  body : ∀ k ∉ ids, (ht'.node k).body = (ht.node k).body

theorem Framed.trans (h₁ : Framed N ids ht ht₁) (h₂ : Framed N ids' ht₁ ht₂) :
    Framed N (ids ++ ids') ht ht₂ := by
  have hsplit : ∀ k, k ∉ ids ++ ids' → k ∉ ids ∧ k ∉ ids' := fun k hk => by simpa using hk
  refine ⟨fun k hN hk => ?_, fun k hk => ?_, fun k hk => ?_, fun k hk => ?_, fun k hk => ?_⟩ <;>
    obtain ⟨hk₁, hk₂⟩ := hsplit k hk
  · rw [h₂.find k hN hk₂, h₁.find k hN hk₁]
  · rw [h₂.oid k hk₂, h₁.oid k hk₁]
  · rw [h₂.posId k hk₂, h₁.posId k hk₁]
  · rw [h₂.content k hk₂, h₁.content k hk₁]
  · rw [h₂.body k hk₂, h₁.body k hk₁]

/-- Among typed lists the names lead to what is allocated. -/
theorem find_eq_of_alloc (h : Typed N ht) (h' : Typed N ht') (hle : ∀ k ∈ ht.alloc, k ∈ ht'.alloc)
    (ha : ∀ k ∈ ht'.alloc, k ∈ ids ∨ k ∈ ht.alloc) :
    ∀ k ∉ N, k ∉ ids → ht'.find k = ht.find k := by
  intro k hN hk
  have hiff : k ∈ ht'.alloc ↔ k ∈ ht.alloc := ⟨fun hk' => (ha k hk').resolve_left hk, hle k⟩
  rw [h.find_eq hN, h'.find_eq hN]
  simp only [hiff]

theorem SameList.framed (hs : SameList ht ht') (h : Typed N ht) (h' : Typed N ht')
    (ha : ∀ k ∈ ht'.alloc, k ∈ ids ∨ k ∈ ht.alloc) : Framed N ids ht ht' := by
  refine ⟨find_eq_of_alloc h h' hs.alloc ha, ?_, ?_, ?_, ?_⟩
  all_goals
    intro k _
    rw [hs.node]

/-- A message on `id` gives no element a place, or `id`. -/
theorem Framed.of_place (h : Typed N ht) (h' : Typed N ht')
    (ha : ∀ k, k ∈ ht'.alloc ↔ k = id ∨ k ∈ ht.alloc)
    (hp : Kept ht ht' ∨ ∃ prev content pos, Added ht ht' prev id content pos)
    (hb : ∀ k, k ≠ id → (ht'.node k).body = (ht.node k).body) : Framed N [id] ht ht' := by
  have hne : ∀ k, k ∉ [id] → k ≠ id := fun k hk => by simpa using hk
  have hfind : ∀ k ∉ N, k ∉ [id] → ht'.find k = ht.find k :=
    find_eq_of_alloc h h' (fun k hk => (ha k).mpr (.inr hk)) fun k hk => by
      simpa using (ha k).mp hk
  rcases hp with hp | ⟨prev, content, pos, hp⟩
  · exact ⟨hfind, fun k _ => hp.oid k, fun k _ => hp.posId k, fun k _ => hp.content k,
      fun k hk => hb k (hne k hk)⟩
  · have hupd : ∀ {A : Type} {f g : Sds → Option A} {a : A}, f = Function.update g id (some a) →
        ∀ k ∉ [id], f k = g k := fun hf k hk => by rw [hf, Function.update_of_ne (hne k hk)]
    exact ⟨hfind, hupd hp.oid, hupd hp.posId, hupd hp.content, fun k hk => hb k (hne k hk)⟩

theorem incrLen_entries {v : ℤ} (h : ht.incrLen v = some ht') :
    ht'.alloc = ht.alloc ∧ ht'.headD = ht.headD := by
  obtain ⟨len, -, rfl⟩ := Option.map_eq_some_iff.mp h
  exact ⟨rfl, setLen_headD⟩

/-- A first insert changes the head to the new element or not at all. -/
theorem insertNew_entries (h : ht.insertNew e id content prev pos = some ht') :
    ht'.alloc = ht.alloc ∧ (ht'.headD = ht.headD ∨ ht'.headD = some e) := by
  obtain ⟨x, -, hl⟩ := Option.bind_eq_some_iff.mp h
  obtain ⟨o, -, hl⟩ := Option.bind_eq_some_iff.mp hl
  cases o with
  | none =>
    obtain rfl := Option.some.inj hl
    exact ⟨rfl, .inr setHead_headD⟩
  | some h₀ =>
    obtain ⟨y, -, hl⟩ := Option.bind_eq_some_iff.mp hl
    split at hl
    · obtain rfl := Option.some.inj hl
      exact ⟨rfl, .inr (by simp [setNext])⟩
    · obtain ⟨pre, -, hl⟩ := Option.bind_eq_some_iff.mp hl
      obtain ⟨w, -, rfl⟩ := Option.map_eq_some_iff.mp hl
      exact ⟨rfl, .inl rfl⟩

/-! ## The prepare phase -/

theorem create_alloc (h : ht.create k = some (ht', e)) : ∀ p ∈ ht'.alloc, p = k ∨ p ∈ ht.alloc := by
  unfold create at h
  split at h
  · cases h
    simp
  · cases h
    exact fun _ => .inr
  · cases h

theorem getCurrent_alloc (h : ht.getCurrent = some ht') : ht'.alloc = ht.alloc := by
  unfold getCurrent at h
  split at h <;> cases h <;> rfl

variable {present : X → Bool} {tick : Clock n → Clock n} {rand : ℕ} {pre : Option Sds}
  {res : Except ReplyErr (Sds × Sds × Leid)}

theorem insertPos_alloc (h : ht.insertPos present tick pre prev id e rand = some (ht', res)) :
    ht'.alloc = ht.alloc := by
  unfold insertPos at h
  split at h
  · cases h; rfl
  split at h
  · split at h
    · cases h; rfl
    · obtain ⟨q, -, h⟩ := Option.bind_eq_some_iff.mp h
      obtain ⟨ht₁, hc, h⟩ := Option.map_eq_some_iff.mp h
      cases h
      exact (setClock_alloc.trans (getCurrent_alloc hc))
  split at h
  · cases h; rfl
  · obtain ⟨x, -, h⟩ := Option.map_eq_some_iff.mp h
    cases h; rfl

theorem prepareInsert_alloc (h : ht.prepareInsert present tick prev id rand = some (ht', res)) :
    ∀ p ∈ ht'.alloc, p = id ∨ p ∈ ht.alloc := by
  obtain ⟨pre, -, h⟩ := Option.bind_eq_some_iff.mp h
  generalize (if pre.isNone then sdstolower prev else prev) = prev' at h
  rw [ite_eq_iff, ite_eq_iff] at h
  rcases h with ⟨-, h⟩ | ⟨-, ⟨-, h⟩ | ⟨-, h⟩⟩
  · cases h; exact fun _ => .inr
  · cases h; exact fun _ => .inr
  · obtain ⟨⟨ht₁, e⟩, hc, h⟩ := Option.bind_eq_some_iff.mp h
    rw [insertPos_alloc h]
    exact create_alloc hc

/-- What the prepare phase of a command on `id` leaves alone: everything except the entry of `id`
and, for a first insert, the clock. -/
structure PrepareFrame (N : List Sds) (tick : Clock n → Clock n) (id : Sds) (ht ht' : Ht n X) :
    Prop where
  framed : Framed N [id] ht ht'
  same : SameList ht ht'
  clock : ht'.clock = ht.clock ∨ ((ht.node id).oid = none ∧ ht'.clock = tick ht.clock)

/-- The elements have the names under which they were allocated. -/
def Named (ht : Ht n X) : Prop := ∀ k, ∀ o ∈ (ht.node k).oid, o = k

theorem SameList.named (hs : SameList ht ht') (h : Named ht) : Named ht' := by
  unfold Named
  rw [hs.node]
  exact h

theorem Named.of_place (h : Named ht)
    (hp : Kept ht ht' ∨ ∃ prev content pos, Added ht ht' prev id content pos) : Named ht' := by
  intro k o ho
  rcases hp with hp | ⟨prev, content, pos, hp⟩
  · exact h k o (hp.oid k ▸ ho)
  · have hk : (ht'.node k).oid = _ := congrFun hp.oid k
    rw [hk] at ho
    by_cases hki : k = id
    · subst hki
      simpa using ho.symm
    · rw [Function.update_of_ne hki] at ho
      exact h k o ho

/-- A name leads to nothing or to the element of this name. -/
theorem Named.find (h : Named ht) (htd : Typed N ht) (hk : k ∉ N) :
    ht.find k = some none ∨ (ht.find k = some (some k) ∧ ∀ o ∈ (ht.node k).oid, o = k) := by
  rw [htd.find_eq hk]
  split
  · exact .inr ⟨rfl, h k⟩
  · exact .inl rfl

end Ht

open Ht

/-! ## The RWF list -/

section Rwfl

variable {ht ht' : RwfHt n} {m : RwflMsg n} {r : Fin n} {o : LCmd}

theorem RwflMsg.Ok.id (h : m.Ok) : m.id ∉ rwflNames := by
  cases m with
  | insert prev id content args pos t => exact h.2.1
  | update id type value lt t => exact h
  | rem id t => exact h

theorem RwflStep.kept_or_added (h : RwflStep ht ht' m) :
    Kept ht ht' ∨ ((ht.node m.id).oid = none ∧
      ∃ prev content pos, Added ht ht' prev m.id content pos) := by
  have hp := h.place
  cases m with
  | insert prev id content args pos t =>
    cases ho : (ht.node id).oid with
    | some o => exact .inl (hp.1 (by simp [ho]))
    | none => exact .inr ⟨ho, prev, content, pos, hp.2 ho⟩
  | update id type value lt t => exact .inl hp
  | rem id t => exact .inl hp

theorem rwflAddFunc_entries {e : Sds} {args : InsertArgs} {t : Clock n}
    (he : rwflAddFunc ht e args t = some ht') :
    ht'.alloc = ht.alloc ∧ ht'.headD = ht.headD := by
  unfold rwflAddFunc at he
  rcases hc : addCheck (ht.node e).body.header t with ⟨h', b⟩
  simp only [hc] at he
  cases b with
  | false =>
    obtain rfl := Option.some.inj he
    exact ⟨rfl, rfl⟩
  | true =>
    dsimp only at he
    split at he
    · have hl := incrLen_entries he
      exact hl
    · obtain rfl := Option.some.inj he
      exact ⟨rfl, rfl⟩

/-- An effect phase allocates no other element, and makes no other element the head. -/
theorem rwflEffect_entries (h : Typed rwflNames ht) (hid : m.id ∉ rwflNames)
    (he : rwflEffect ht m = some ht') :
    (∀ k, k ∈ ht'.alloc ↔ k = m.id ∨ k ∈ ht.alloc) ∧
      (ht'.headD = ht.headD ∨ ht'.headD = some m.id) := by
  obtain ⟨ht₁, hr, h₁, hb⟩ := rwflRemoveFunc_spec (h.withEle hid) m.id m.t
  have hhead : ht₁.headD = ht.headD := hb.head.trans (withEle_headD (h.ne_head hid))
  -- The rest of the phase allocates nothing.
  suffices hrest : ht'.alloc = ht₁.alloc ∧ (ht'.headD = ht₁.headD ∨ ht'.headD = some m.id) by
    rw [hhead] at hrest
    exact ⟨fun k => by rw [hrest.1, hb.alloc, h.mem_withEle hid], hrest.2⟩
  cases m with
  | insert prev id content args pos t =>
    simp only [RwflMsg.id, RwflMsg.t] at hid hr ⊢
    simp only [rwflEffect, h.create_eq hid, Option.bind_some, hr] at he
    obtain ⟨ht₂, hi, ha⟩ := Option.bind_eq_some_iff.mp he
    obtain ⟨halloc, hhead'⟩ := rwflAddFunc_entries ha
    rw [halloc, hhead']
    split at hi
    · exact insertNew_entries hi
    · obtain rfl := Option.some.inj hi
      exact ⟨rfl, .inl rfl⟩
  | update id type value lt t =>
    simp only [RwflMsg.id, RwflMsg.t] at hid hr ⊢
    simp only [rwflEffect, h.create_eq hid, Option.bind_some, hr, Option.map_some,
      Option.some.injEq] at he
    rw [← he]
    split <;> exact ⟨rfl, .inl rfl⟩
  | rem id t =>
    simp only [RwflMsg.id, RwflMsg.t] at hid hr ⊢
    simp only [rwflEffect, h.create_eq hid, Option.bind_some, hr, Option.some.injEq] at he
    rw [← he]
    exact ⟨rfl, .inl rfl⟩

/-- What a message leaves alone, and how it changes the list's own entries. -/
structure RwflFrame (ht ht' : RwfHt n) (m : RwflMsg n) : Prop where
  framed : Framed rwflNames [m.id] ht ht'
  head : ht'.headD = ht.headD ∨ ((ht.node m.id).oid = none ∧ ht'.headD = some m.id)
  len : ht'.lenD = ht.lenD + (ht.node m.id).body.delta m
  clock : ht'.clock = ht.clock

/-- The frame of an effect phase. -/
theorem rwflEffect_frame (h : Typed rwflNames ht) (hs : Sound ht) (hm : m.Ok) :
    ∃ ht', rwflEffect ht m = some ht' ∧ RwflFrame ht ht' m := by
  obtain ⟨ht', he, hstep⟩ := rwflEffect_step h hs hm
  obtain ⟨halloc, hhead⟩ := rwflEffect_entries h hm.id he
  refine ⟨ht', he, ?_, ?_, hstep.len, hstep.clock⟩
  · exact .of_place h hstep.typed halloc (hstep.kept_or_added.imp_right And.right)
      fun k hk => by rw [hstep.body, if_neg hk]
  · rcases hstep.kept_or_added with hk | ⟨ho, -⟩
    · exact .inl hk.head
    · exact hhead.imp_right fun hh => ⟨ho, hh⟩

theorem rwflPrepare_alloc {res : Except ReplyErr (RwflMsg n)}
    (hp : rwflPrepare r ht o = some (ht', res)) : ∀ k ∈ ht'.alloc, k = o.id ∨ k ∈ ht.alloc := by
  have hsame : ∀ {res'}, some (ht, (res' : Except ReplyErr (RwflMsg n))) = some (ht', res) →
      ∀ k ∈ ht'.alloc, k = o.id ∨ k ∈ ht.alloc := by
    intro res' heq
    cases heq
    exact fun _ => .inr
  cases o with
  | insert argc prev id content font size color property rand =>
    simp only [rwflPrepare] at hp
    split at hp
    · exact hsame hp
    · exact hsame hp
    · obtain ⟨⟨ht₁, res₁⟩, hi, heq⟩ := Option.map_eq_some_iff.mp hp
      cases heq
      exact prepareInsert_alloc hi
  | update argc id type value =>
    simp only [rwflPrepare] at hp
    split at hp
    · exact hsame hp
    · exact hsame hp
    · obtain ⟨q, -, heq⟩ := Option.map_eq_some_iff.mp hp
      cases q <;> exact hsame (congrArg some heq)
  | rem argc id =>
    simp only [rwflPrepare] at hp
    split at hp
    · exact hsame hp
    · obtain ⟨q, -, heq⟩ := Option.map_eq_some_iff.mp hp
      cases q <;> exact hsame (congrArg some heq)

/-- The frame of a prepare phase. -/
theorem rwflPrepare_frame (h : Typed rwflNames ht) (hs : Sound ht)
    (ho : ∀ k ∈ o.names, k ∉ rwflNames) :
    ∃ ht' res, rwflPrepare r ht o = some (ht', res) ∧
      PrepareFrame rwflNames (vcInc · r) o.id ht ht' := by
  obtain ⟨ht', res, hp, h', hsame, hres⟩ := rwflPrepare_step (r := r) h hs ho
  refine ⟨ht', res, hp, hsame.framed h h' ?_, hsame, ?_⟩
  · simpa using rwflPrepare_alloc hp
  · rcases hres with ⟨err, -, hc⟩ | ⟨m, -, hsent⟩
    · exact .inl hc
    · cases hsent with
      | insert _ _ hpos =>
        rcases hpos.sent with ⟨hoid, -, hc, -⟩ | ⟨-, -, hc⟩
        · exact .inr ⟨hoid, hc⟩
        · exact .inl hc
      | update _ hc => exact .inl hc
      | rem _ hc => exact .inl hc

/-- What every command and every message on a list of the RWF type leaves alone. -/
structure RwflFramed (r : Fin n) (ht : RwfHt n) : Prop where
  find : ∀ k ∉ rwflNames, ht.find k = some none ∨
    (ht.find k = some (some k) ∧ ∀ o ∈ (ht.node k).oid, o = k)
  prepare : ∀ o : LCmd, (∀ k ∈ o.names, k ∉ rwflNames) →
    ∃ ht' res, rwflPrepare r ht o = some (ht', res) ∧
      PrepareFrame rwflNames (vcInc · r) o.id ht ht'
  effect : ∀ m : RwflMsg n, m.Ok → ∃ ht', rwflEffect ht m = some ht' ∧ RwflFrame ht ht' m

end Rwfl

/-- The elements of a run have their names. -/
theorem rwfl_named {junk : Fin n → Sds → Normal → BitVec 32}
    {s : Sys (Fin n) (Option (RwfHt n)) (RwflMsg n)}
    (hs : (rwflObj n junk).Reach (rwflGuard junk) s) : ∀ r ht, s.st r = some ht → Named ht := by
  have hstep : ∀ {ht ht' : RwfHt n} {m : RwflMsg n}, RwflStep ht ht' m → Named ht → Named ht' :=
    fun hm h => h.of_place (hm.kept_or_added.imp_right And.right)
  refine rwfl_rule (I := fun _ _ ht => Named ht) hs (fun _ _ h => h) ?_ ?_ ?_ ?_ ?_
  · intro r ht hinit k o ho
    obtain rfl := Option.some.inj hinit
    simp [Ht.new, Node.new] at ho
  · exact fun _ _ _ _ hsame h => hsame.named h
  · exact fun _ _ _ _ _ _ _ h => h
  · exact fun _ _ _ _ _ _ _ _ _ _ _ hsame _ hm h => hstep hm (hsame.named h)
  · exact fun _ _ _ _ _ _ _ _ _ _ _ _ hm _ h => hstep hm h

theorem rwfl_framed {junk : Fin n → Sds → Normal → BitVec 32}
    {s : Sys (Fin n) (Option (RwfHt n)) (RwflMsg n)}
    (hs : (rwflObj n junk).Reach (rwflGuard junk) s) (r : Fin n) :
    ∃ ht, s.st r = some ht ∧ RwflFramed r ht := by
  obtain ⟨ht, hst, htd, hsd⟩ := (rwfl_typed hs).1 r
  exact ⟨ht, hst, fun k hk => (rwfl_named hs r ht hst).find htd hk,
    fun o ho => rwflPrepare_frame htd hsd ho, fun m hm => rwflEffect_frame htd hsd hm⟩

/-! ## The Remove-Win list -/

section Rl

variable {ht ht' : RlHt n} {m : RlMsg n} {o : LCmd}

theorem RlStep.kept_or_added (h : RlStep ht ht' m) :
    Kept ht ht' ∨ ((ht.node m.id).oid = none ∧
      ∃ prev content pos, Added ht ht' prev m.id content pos) := by
  have hp := h.place
  cases m with
  | insert prev id content args pos t =>
    cases ho : (ht.node id).oid with
    | some o => exact .inl (hp.1 (by simp [ho]))
    | none => exact .inr ⟨ho, prev, content, pos, hp.2 ho⟩
  | update id type value t => exact .inl hp
  | rem id t => exact .inl hp

theorem setBody_incrLen_entries {e : Sds} {y : RwSets n (RlAse n)} {b : Bool} {d : ℤ}
    (he : (if b then (ht.setBody e y).incrLen d else some (ht.setBody e y)) = some ht') :
    ht'.alloc = ht.alloc ∧ ht'.headD = ht.headD := by
  split at he
  · have hl := incrLen_entries he
    exact hl
  · obtain rfl := Option.some.inj he
    exact ⟨rfl, rfl⟩

/-- An operation allocates no other element, and makes no other element the head. -/
theorem rlExec_entries (h : Typed rlNames ht) (hid : m.id ∉ rlNames)
    (he : rlExec ht m = some ht') :
    (∀ k, k ∈ ht'.alloc ↔ k = m.id ∨ k ∈ ht.alloc) ∧
      (ht'.headD = ht.headD ∨ ht'.headD = some m.id) := by
  have h₁ := h.withClock.setClock (vcUpdate ht.clock m.t)
  have hb : rlBegin ht m.id m.t =
      some ((ht.withClock.setClock (vcUpdate ht.clock m.t)).withEle m.id, m.id) := by
    simp [rlBegin, h.getCurrent_eq, h₁.create_eq hid]
  -- The rest of the operation allocates nothing.
  suffices hrest :
      ht'.alloc = ((ht.withClock.setClock (vcUpdate ht.clock m.t)).withEle m.id).alloc ∧
      (ht'.headD = ((ht.withClock.setClock (vcUpdate ht.clock m.t)).withEle m.id).headD ∨
        ht'.headD = some m.id) by
    rw [withEle_headD (h.ne_head hid), setClock_headD, withClock_headD] at hrest
    exact ⟨fun k => by rw [hrest.1, h₁.mem_withEle hid]; rfl, hrest.2⟩
  generalize (ht.withClock.setClock (vcUpdate ht.clock m.t)).withEle m.id = ht₁ at hb ⊢
  cases m with
  | insert prev id content args pos t =>
    simp only [RlMsg.id, RlMsg.t] at hb ⊢
    simp only [rlExec, rlInsertFunc, hb, Option.bind_some] at he
    obtain ⟨ht₂, hi, ha⟩ := Option.bind_eq_some_iff.mp he
    obtain ⟨halloc, hhead⟩ := setBody_incrLen_entries ha
    rw [halloc, hhead]
    split at hi
    · exact insertNew_entries hi
    · obtain rfl := Option.some.inj hi
      exact ⟨rfl, .inl rfl⟩
  | update id type value t =>
    simp only [RlMsg.id, RlMsg.t] at hb ⊢
    simp only [rlExec, rlUpdateFunc, hb, Option.map_some, Option.some.injEq] at he
    rw [← he]
    exact ⟨rfl, .inl rfl⟩
  | rem id t =>
    simp only [RlMsg.id, RlMsg.t] at hb ⊢
    simp only [rlExec, rlRemoveFunc, hb, Option.bind_some] at he
    obtain ⟨halloc, hhead⟩ := setBody_incrLen_entries he
    exact ⟨halloc, .inl hhead⟩

/-- What an operation leaves alone, and how it changes the list's own entries. -/
structure RlFrame (ht ht' : RlHt n) (m : RlMsg n) : Prop where
  framed : Framed rlNames [m.id] ht ht'
  head : ht'.headD = ht.headD ∨ ((ht.node m.id).oid = none ∧ ht'.headD = some m.id)
  len : ht'.lenD = ht.lenD +
    (((ht.node m.id).body.exec (rlKind n) m.toRw).count - (ht.node m.id).body.count)
  clock : ht'.clock = vcUpdate ht.clock m.t

/-- The frame of an operation. -/
theorem rlExec_frame (h : Typed rlNames ht) (hs : Sound ht) (hm : m.Ok) :
    ∃ ht', rlExec ht m = some ht' ∧ RlStep ht ht' m ∧ RlFrame ht ht' m := by
  obtain ⟨ht', he, hstep⟩ := rlExec_step h hs hm
  obtain ⟨halloc, hhead⟩ := rlExec_entries h hm.id he
  refine ⟨ht', he, hstep, ?_, ?_, hstep.len, hstep.clock⟩
  · exact .of_place h hstep.typed halloc (hstep.kept_or_added.imp_right And.right)
      fun k hk => by rw [hstep.body, if_neg hk]
  · rcases hstep.kept_or_added with hk | ⟨ho, -⟩
    · exact .inl hk.head
    · exact hhead.imp_right fun hh => ⟨ho, hh⟩

theorem rlStamped_alloc {f : Clock n → RlMsg n} {res : Except ReplyErr (RlMsg n)}
    (hp : rlStamped ht f = some (ht', res)) : ht'.alloc = ht.alloc := by
  obtain ⟨ht₁, hc, heq⟩ := Option.map_eq_some_iff.mp hp
  cases heq
  exact getCurrent_alloc hc

theorem rlWithEle_alloc {id : Sds} {f : Clock n → RlMsg n} {res : Except ReplyErr (RlMsg n)}
    (hp : rlWithEle ht id f = some (ht', res)) : ht'.alloc = ht.alloc := by
  obtain ⟨q, -, hp⟩ := Option.bind_eq_some_iff.mp hp
  cases q with
  | none => cases hp; rfl
  | some e =>
    dsimp only at hp
    split at hp
    · exact rlStamped_alloc hp
    · cases hp; rfl

theorem rlPrepare_alloc {res : Except ReplyErr (RlMsg n)}
    (hp : rlPrepare ht o = some (ht', res)) : ∀ k ∈ ht'.alloc, k = o.id ∨ k ∈ ht.alloc := by
  cases o with
  | insert argc prev id content font size color property rand =>
    simp only [rlPrepare] at hp
    split at hp
    · cases hp; exact fun _ => .inr
    · cases hp; exact fun _ => .inr
    · obtain ⟨⟨ht₁, res₁⟩, hi, hp⟩ := Option.bind_eq_some_iff.mp hp
      cases res₁ with
      | error err => cases hp; exact prepareInsert_alloc hi
      | ok q => rw [rlStamped_alloc hp]; exact prepareInsert_alloc hi
  | update argc id type value =>
    simp only [rlPrepare] at hp
    split at hp
    · cases hp; exact fun _ => .inr
    · cases hp; exact fun _ => .inr
    · rw [rlWithEle_alloc hp]; exact fun _ => .inr
  | rem argc id =>
    simp only [rlPrepare] at hp
    split at hp
    · cases hp; exact fun _ => .inr
    · rw [rlWithEle_alloc hp]; exact fun _ => .inr

/-- The frame of a prepare phase, which leaves the clock as it is. -/
theorem rlPrepare_frame (h : Typed rlNames ht) (hs : Sound ht)
    (ho : ∀ k ∈ o.names, k ∉ rlNames) :
    ∃ ht' res, rlPrepare ht o = some (ht', res) ∧
      PrepareFrame rlNames (fun c => c) o.id ht ht' := by
  obtain ⟨ht', res, hp, h', hsame, hc, -⟩ := rlPrepare_step h hs ho
  refine ⟨ht', res, hp, hsame.framed h h' ?_, hsame, .inl hc⟩
  simpa using rlPrepare_alloc hp

/-- The operations `l` are applied one after the other; besides, only the entries of the clock and
of the buffer are made. -/
inductive RlFrames (ht : RlHt n) : List (RlMsg n) → RlHt n → Prop
  | refl : RlFrames ht [] ht
  | entry {l : List (RlMsg n)} {ht₁ ht₂ : RlHt n} (h : RlFrames ht l ht₁)
    (hf : Framed rlNames [] ht₁ ht₂) (hs : SameList ht₁ ht₂) (hc : ht₂.clock = ht₁.clock) :
    RlFrames ht l ht₂
  | exec {l : List (RlMsg n)} {ht₁ ht₂ : RlHt n} {m : RlMsg n} (h : RlFrames ht l ht₁)
    (hf : RlFrame ht₁ ht₂ m) : RlFrames ht (l ++ [m]) ht₂

namespace RlFrames

variable {l : List (RlMsg n)}

/-- Only the elements that the operations name change. -/
theorem framed (h : RlFrames ht l ht') : Framed rlNames (l.map RlMsg.id) ht ht' := by
  induction h with
  | refl => exact ⟨fun _ _ _ => rfl, fun _ _ => rfl, fun _ _ => rfl, fun _ _ => rfl, fun _ _ => rfl⟩
  | entry _ hf _ _ ih => simpa using ih.trans hf
  | exec _ hf ih => simpa using ih.trans hf.framed

theorem withClock (h : RlFrames ht l ht') (ht'' : Typed rlNames ht') :
    RlFrames ht l ht'.withClock :=
  h.entry ((SameList.withClock ht').framed ht'' ht''.withClock fun _ hk => .inr hk) (.withClock ht')
    rfl

theorem withOps (h : RlFrames ht l ht') (ht'' : Typed rlNames ht') :
    RlFrames ht l ht'.withOps :=
  h.entry ((SameList.withOps ht').framed ht'' (ht''.withOps (by decide)) fun _ hk => .inr hk)
    (.withOps ht') rfl

end RlFrames

variable {x : RlSt n}

/-- Some of the operations `ms` are applied to `ht`, and `ops` are left. -/
def RlApplies (ht : RlHt n) (ms : List (RlMsg n)) (s : Option (RlSt n)) (ops : List (RlMsg n)) :
    Prop :=
  ∃ y l, s = some y ∧ RlFrames ht l y.ht ∧ Typed rlNames y.ht ∧ Sound y.ht ∧ (l ++ ops).Perm ms

theorem RlApplies.exec {ms ops : List (RlMsg n)} {s : Option (RlSt n)}
    (h : RlApplies ht ms s (m :: ops)) (hm : m.Ok) :
    RlApplies ht ms (s.bind (RlSt.exec · m)) ops := by
  obtain ⟨y, l, rfl, hf, htd, hsd, hp⟩ := h
  obtain ⟨ht₁, he, hstep, hframe⟩ := rlExec_frame htd hsd hm
  refine ⟨⟨ht₁, y.ops, y.hist ++ [m]⟩, l ++ [m], by simp [RlSt.exec, he], hf.exec hframe,
    hstep.typed, hstep.sound, ?_⟩
  simpa using hp

theorem RlApplies.perm {ms ops ops' : List (RlMsg n)} {s : Option (RlSt n)}
    (h : RlApplies ht ms s ops) (hp : ops'.Perm ops) : RlApplies ht ms s ops' := by
  obtain ⟨y, l, rfl, hf, htd, hsd, hms⟩ := h
  exact ⟨y, l, rfl, hf, htd, hsd, (hp.append_left l).trans hms⟩

/-- `notifyLoop` applies operations of the buffer. -/
theorem RlApplies.notify {ms : List (RlMsg n)} (k : ℕ) (h : RlApplies ht ms (some x) x.ops)
    (hops : ∀ m ∈ x.ops, m.Ok) :
    ∃ y, rlNotify k x = some y ∧ RlApplies ht ms (some y) y.ops := by
  obtain ⟨x', l, heq, hf, htd, hsd, hp⟩ := h
  obtain rfl := Option.some.inj heq
  have htd' := htd.withOps (by decide)
  have hstart : RlApplies ht ms (some { x with ht := x.ht.withOps.withClock }) x.ops :=
    ⟨_, l, rfl, (hf.withOps htd).withClock htd', htd'.withClock,
      ((SameList.withOps _).trans (.withClock _)).kept.sound hsd, hp⟩
  have hround : ∀ s ops m, (RlApplies ht ms s ops ∧ ∀ m ∈ ops, m.Ok) →
      ops.find? (rlReady s) = some m →
      RlApplies ht ms (s.bind (RlSt.exec · m)) (ops.eraseP (rlReady s)) ∧
        ∀ m ∈ ops.eraseP (rlReady s), m.Ok := by
    intro s ops m hI hfind
    exact ⟨(hI.1.perm (perm_cons_eraseP hfind)).exec
      (hI.2 m (List.mem_of_find?_eq_some hfind)), fun m' hm' => hI.2 m' (List.eraseP_subset hm')⟩
  have hrun := drain_rule hround k _ _ ⟨hstart, hops⟩
  generalize hd : drain rlReady (fun x m => x.bind (RlSt.exec · m)) k
    (some { x with ht := x.ht.withOps.withClock }) x.ops = p at hrun
  obtain ⟨⟨y, l', hy, hf', hrest⟩, -⟩ := hrun
  refine ⟨{ y with ops := p.2 }, ?_, _, l', rfl, hf', hrest⟩
  simp only [rlNotify, htd.getOps_eq (by decide), Option.bind_some, htd'.getCurrent_eq, hd, hy,
    Option.map_some]

/-- **The frame of an effect phase**: operations of the buffer and the message are applied, and the
others stay in the buffer. -/
theorem rlEffect_frame (h : Typed rlNames x.ht) (hs : Sound x.ht) (hops : ∀ m ∈ x.ops, m.Ok)
    (hm : m.Ok) : ∃ y l, rlEffect x m = some y ∧ RlFrames x.ht l y.ht ∧
      Framed rlNames (l.map RlMsg.id) x.ht y.ht ∧ (l ++ y.ops).Perm (m :: x.ops) := by
  have hclock : RlFrames x.ht [] x.ht.withClock := RlFrames.refl.withClock h
  simp only [rlEffect, h.getCurrent_eq, Option.bind_some]
  by_cases hr : vcCausallyReady x.ht.withClock.clock m.t = true
  · have hstart : RlApplies x.ht (m :: x.ops) (some { x with ht := x.ht.withClock })
        (m :: x.ops) :=
      ⟨_, [], rfl, hclock, h.withClock, (SameList.withClock x.ht).kept.sound hs, .refl _⟩
    have hexec := hstart.exec hm
    obtain ⟨ht₁, he, -⟩ := rlExec_step h.withClock ((SameList.withClock x.ht).kept.sound hs) hm
    simp only [Option.bind_some, RlSt.exec, he, Option.map_some] at hexec ⊢
    obtain ⟨y, hy, y', l, heq, hf, -, -, hp⟩ := RlApplies.notify x.ops.length hexec hops
    obtain rfl := Option.some.inj heq
    exact ⟨y, l, by rw [if_pos hr, hy], hf, hf.framed, hp⟩
  · refine ⟨{ x with ht := x.ht.withClock.withOps, ops := x.ops ++ [m] }, [], ?_,
      hclock.withOps h.withClock, (hclock.withOps h.withClock).framed, ?_⟩
    · rw [if_neg hr, h.withClock.getOps_eq (by decide), Option.map_some]
    · exact List.perm_append_singleton m x.ops

/-- What every command and every message on a list of the Remove-Win type leaves alone. -/
structure RlFramed (x : RlSt n) : Prop where
  find : ∀ k ∉ rlNames, x.ht.find k = some none ∨
    (x.ht.find k = some (some k) ∧ ∀ o ∈ (x.ht.node k).oid, o = k)
  prepare : ∀ o : LCmd, (∀ k ∈ o.names, k ∉ rlNames) →
    ∃ ht' res, rlPrepare x.ht o = some (ht', res) ∧
      PrepareFrame rlNames (fun c => c) o.id x.ht ht'
  effect : ∀ m : RlMsg n, m.Ok → ∃ y l, rlEffect x m = some y ∧ RlFrames x.ht l y.ht ∧
    Framed rlNames (l.map RlMsg.id) x.ht y.ht ∧ (l ++ y.ops).Perm (m :: x.ops)

theorem RlTrace.named {r : Fin n} {hist : List (RlMsg n)} (h : RlTrace r ht hist) : Named ht := by
  induction h with
  | init => intro k o ho; simp [Ht.new, Node.new] at ho
  | same _ _ hs _ ih => exact hs.named ih
  | exec _ hs ih => exact ih.of_place (hs.kept_or_added.imp_right And.right)

end Rl

theorem rl_framed {s : Sys (Fin n) (Option (RlSt n)) (RlMsg n)} (hs : (rlObj n).Reach rlGuard s)
    (r : Fin n) : ∃ x, s.st r = some x ∧ RlFramed x := by
  obtain ⟨x, hx, htr, hops⟩ := (rl_causal hs).2 r
  exact ⟨x, hx, fun k hk => htr.named.find htr.typed hk,
    fun o ho => rlPrepare_frame htr.typed htr.sound ho,
    fun m hm => rlEffect_frame htr.typed htr.sound hops hm⟩

/-! ## Both lists -/

/-- In every run whose commands name none of the list's own entries and find room for their
identifiers, a name that is none of these entries leads to nothing or to its own element, and a
command or message changes nothing under other names and the list's own entries only as the
algorithm does. -/
theorem lists_frame :
    (∀ junk (s : Sys (Fin n) (Option (RwfHt n)) (RwflMsg n)),
      (rwflObj n junk).Reach (rwflGuard junk) s →
      (∀ r, ∃ ht, s.st r = some ht ∧ RwflFramed r ht) ∧
      ∀ i o m, s.log i = some (o, m) → m.Ok) ∧
    (∀ s : Sys (Fin n) (Option (RlSt n)) (RlMsg n), (rlObj n).Reach rlGuard s →
      (∀ r, ∃ x, s.st r = some x ∧ RlFramed x) ∧
      ∀ i o m, s.log i = some (o, m) → m.Ok) := by
  refine ⟨fun junk s hs => ⟨rwfl_framed hs, (rwfl_typed hs).2⟩, fun s hs => ⟨rl_framed hs, ?_⟩⟩
  exact ((rlView n).reach (H := anyOrder) (fun _ _ _ _ h => h) (fun _ _ _ _ => trivial)
    (fun _ _ _ _ _ _ _ => trivial) hs).2.2

/-- The condition holds of an insert that is delivered, and of an update of the element after it. -/
theorem lists_frame_delivered :
    let run : List (Ev (Fin 2) LCmd) := [.op 0 (insertFront "a".toList 0) 0, .recv 1 0,
      .op 1 (.update 5 "a".toList "font".toList (some 5)) 1, .recv 0 1]
    (∀ r, ∃ ht, ((rwflObj 2 fun _ _ _ => 0).runOf run).st r = some ht ∧ RwflFramed r ht) ∧
      ∀ r, ∃ x, ((rlObj 2).runOf run).st r = some x ∧ RlFramed x :=
  ⟨(lists_frame.1 (fun _ _ _ => 0) _
      (Obj.reach_runOf (rwflGuard_of_ok fun _ _ _ => 0) _ (by decide +kernel))).1,
    (lists_frame.2 _ (Obj.reach_runOf rlGuard_of_ok _ (by decide +kernel))).1⟩

/-- The name `head` leads to the first element, `a`, and an update of `head` changes the font of
`a`. -/
theorem head_finds_other :
    let P := rwflObj 1 fun _ _ _ => 0
    let s := P.runOf [.op 0 (insertFront "a".toList 0) 0]
    let s' := P.runOf [.op 0 (insertFront "a".toList 0) 0,
      .op 0 (.update 5 headKey "font".toList (some 5)) 1]
    P.Reach fifo s ∧ P.Reach fifo s' ∧
      (s.st 0).map (fun ht => (ht.find headKey, (ht.node "a".toList).body.attrs.normal .font)) =
        some (some (some "a".toList), 1) ∧
      (s'.st 0).map (fun ht => (ht.node "a".toList).body.attrs.normal .font) = some 5 :=
  ⟨Obj.reach_runOf Obj.fifo_of_fifoOk _ (by decide +kernel),
    Obj.reach_runOf Obj.fifo_of_fifoOk _ (by decide +kernel), by decide +kernel,
    by decide +kernel⟩

end CrdtRedis
