import CrdtRedis.ListGrowth

/-!
# The length and the values of the Remove-Win list

The list keeps the number of its elements by hand: an insert and a remove compare `LOOKUP` before
and after the change of the records. `e->value` points to the entry of `aset` that the element
shows. Every operation is applied by one of three functions, those of the buffer too, so both hold
along a history (`RlTrace`).

* `RlTrace.placed`: an element with records of inserts has a place.
* `RlTrace.length`: the length is the number of elements of the chain with `LOOKUP`.
* `RwClosed.valueOk`: no other entry has the origin of the one that `value` points to.
* `rl_length`: in every run the length, `LOOKUP`, `value` and the reply of `rllist` agree.
* `rl_length_lost`: after 1024 inserts in front an insert leaves no list.
-/

namespace CrdtRedis

open Broadcast Ht Linked

variable {n : ℕ}

/-- `rllenCommand`. -/
def rllen (ht : RlHt n) : Option ℤ := ht.getLen

theorem Ht.Added.isSome {X : Type} {ht ht' : Ht n X} {prev id content : Sds} {pos : Leid}
    (h : Added ht ht' prev id content pos) (k : Sds) :
    (ht'.node k).posId.isSome ↔ k = id ∨ (ht.node k).posId.isSome := by
  have hk : (ht'.node k).posId = _ := congrFun h.posId k
  rw [hk]
  by_cases hki : k = id
  · subst hki
    simp
  · rw [Function.update_of_ne hki]
    simp [hki]

/-! ## The place of an element that is looked up -/

section Trace

variable {r : Fin n} {ht ht' : RlHt n} {hist : List (RlMsg n)} {m : RlMsg n} {k : Sds}
  {l l' : List Sds}

/-- Only an insert makes entries. -/
theorem aset_of_exec {s : RwSets n (RlAse n)} (h : (s.exec (rlKind n) m.toRw).aset ≠ []) :
    s.aset ≠ [] ∨ m.ins.isSome := by
  cases m with
  | insert prev id content args pos t => exact .inr rfl
  | update id type value t =>
    refine .inl fun h0 => h ?_
    simp [RlMsg.toRw, RwSets.exec, RwSets.update, h0]
  | rem id t =>
    refine .inl fun h0 => h ?_
    simp [RlMsg.toRw, RwSets.exec, RwSets.remove, RwSets.drop, h0]

/-- An insert gives its element a place, if it has none. -/
theorem RlStep.placed (h : RlStep ht ht' m) (hs : Sound ht) (hm : m.ins.isSome) :
    (ht'.node m.id).posId.isSome := by
  have hp := h.place
  cases m with
  | insert prev id content args pos t =>
    cases ho : (ht.node id).oid with
    | some o =>
      have hk : (ht'.node id).posId = _ := (hp.1 (by simp [ho])).posId id
      rw [RlMsg.id, hk, ← hs.oid, ho]
      rfl
    | none => exact ((hp.2 ho).isSome id).mpr (.inl rfl)
  | update id type value t => cases hm
  | rem id t => cases hm

/-- What has a place keeps it. -/
theorem RlStep.keeps_place (h : RlStep ht ht' m) (hk : (ht.node k).posId.isSome) :
    (ht'.node k).posId.isSome := by
  rcases h.kept_or_added with hp | ⟨-, prev, content, pos, hp⟩
  · rw [hp.posId]
    exact hk
  · exact (hp.isSome k).mpr (.inr hk)

theorem RlTrace.placed (h : RlTrace r ht hist) : ∀ k, (ht.node k).body.aset ≠ [] →
    (ht.node k).posId.isSome := by
  induction h with
  | init => exact fun k hk => absurd rfl hk
  | same _ _ hs _ ih =>
    rw [hs.node]
    exact ih
  | @exec ht ht' hist m htr hs ih =>
    intro k hk
    rw [hs.body] at hk
    by_cases hki : k = m.id
    · subst hki
      rw [if_pos rfl] at hk
      rcases aset_of_exec hk with hold | hins
      · exact hs.keeps_place (ih _ hold)
      · exact hs.placed htr.sound hins
    · rw [if_neg hki] at hk
      exact hs.keeps_place (ih k hk)

theorem aset_of_lookup {s : RwSets n (RlAse n)} (h : s.lookup = true) : s.aset ≠ [] := by
  rintro h0
  simp [RwSets.lookup, h0] at h

/-- Every element with `LOOKUP` is in the chain. -/
theorem RlTrace.mem_chain (h : RlTrace r ht hist) (hl : Listed ht l) (k : Sds)
    (hk : (ht.node k).body.lookup = true) : k ∈ l :=
  (hl.mem k).mpr (h.placed k (aset_of_lookup hk))

/-! ## The length -/

/-- The chain after an operation. -/
theorem RlStep.chain (h : RlStep ht ht' m) (hs : Sound ht) (hl : Listed ht l)
    (hl' : Listed ht' l') :
    l' = l ∨ (l'.Perm (m.id :: l) ∧ m.id ∉ l) := by
  rcases h.kept_or_added with hp | ⟨ho, prev, content, pos, hp⟩
  · exact .inl (hl'.chain.unique (hp.listed hl).chain)
  · have hid : m.id ∉ l := fun hid => by
      have := (hl.mem m.id).mp hid
      rw [← hs.oid, ho] at this
      cases this
    refine .inr ⟨(List.perm_ext_iff_of_nodup hl'.chain.nodup
      (List.nodup_cons.mpr ⟨hid, hl.chain.nodup⟩)).mpr fun k => ?_, hid⟩
    rw [hl'.mem, hp.isSome, List.mem_cons, hl.mem]

/-- One operation changes the length as it changes the number of elements. -/
theorem RlStep.length (h : RlStep ht ht' m) (htr : RlTrace r ht hist) (hl : Listed ht l)
    (hl' : Listed ht' l')
    (hlen : ht.lenD = (l.countP fun k => (ht.node k).body.lookup : ℕ)) :
    ht'.lenD = (l'.countP fun k => (ht'.node k).body.lookup : ℕ) := by
  have hcount := countP_step (f := fun k => (ht.node k).body.lookup)
    (g := fun k => (ht'.node k).body.lookup) hl.chain.nodup
    (fun k hk => by rw [h.body, if_neg hk]) (h.chain htr.sound hl hl')
    (fun hid => Bool.eq_false_iff.mpr fun hk => hid (htr.mem_chain hl _ hk))
    (fun hid => Bool.eq_false_iff.mpr fun hk => hid ((htr.exec h).mem_chain hl' _ hk))
  have hself : (ht.node m.id).body.exec (rlKind n) m.toRw = (ht'.node m.id).body := by
    rw [h.body, if_pos rfl]
  rw [h.len, hself, hlen]
  simp only [RwSets.count] at hcount ⊢
  omega

/-- The length along a history. -/
theorem RlTrace.length {sent : RlMsg n → Prop} (h : RlTrace r ht hist)
    (hL : ∀ m, sent m → RlGood sent m) (hI : InsLog (rlIns sent)) (hH : RlHist sent hist) :
    ∃ l, Listed ht l ∧ ht.lenD = (l.countP fun k => (ht.node k).body.lookup : ℕ) := by
  induction h with
  | init => exact ⟨[], .new, rfl⟩
  | same _ _ hs _ ih =>
    obtain ⟨l, hl, hlen⟩ := ih hH
    exact ⟨l, hs.kept.listed hl, by rw [hs.len, hs.node, hlen]⟩
  | @exec ht ht' hist m htr hs ih =>
    obtain ⟨l, hl, hlen⟩ := ih hH.init
    obtain ⟨l', hl'⟩ := ((htr.exec hs).ofInserts hL hI hH).ordered
    exact ⟨l', hl'.listed, hs.length htr hl hl'.listed hlen⟩

end Trace

/-! ## The values -/

/-- The messages of one origin are ordered, so two inserts that survive have different origins. -/
theorem RwClosed.origin {H : List (RwMsg n InsertArgs RlUpd)} {z : RwSets n (RlAse n)}
    (h : RwClosed (rlKind n) H z) (hH : CausalHist H) {a b : RlAse n} (ha : a ∈ z.aset)
    (hb : b ∈ z.aset) (hid : a.t.id = b.t.id) : a = b := by
  obtain ⟨g, t, hg, hsv, rfl⟩ := (h.aset a).mp ha
  obtain ⟨g', t', hg', hsv', rfl⟩ := (h.aset b).mp hb
  have ht : (rwEntry (rlKind n) H g t).t = t := stamp_rwEntry (K := rlKind n) g t
  have ht' : (rwEntry (rlKind n) H g' t').t = t' := stamp_rwEntry (K := rlKind n) g' t'
  rw [ht, ht'] at hid
  have hnot := hsv (.add g' t') hg' rfl
  have hnot' := hsv' (.add g t) hg rfl
  have heq : t.vector = t'.vector := by
    rcases hH.comparable (.add g t) (.add g' t') hg hg' hid with hle | hle
    · exact hle.eq_of_not_lt hnot
    · exact (hle.eq_of_not_lt hnot').symm
  obtain ⟨rfl, rfl⟩ : g = g' ∧ t = t' := by
    simpa using hH.eq_of_vector hg hg' heq
  rfl

/-- `value` is NULL if there are no entries, and otherwise the entry with the greatest origin id. -/
def RwSets.ValueOk (z : RwSets n (RlAse n)) : Prop :=
  (z.value = none ↔ z.aset = []) ∧
    ∀ c ∈ z.value, ∃ a ∈ z.aset, a.t = c ∧ ∀ b ∈ z.aset, b ≠ a → b.t.id < a.t.id

theorem RwClosed.valueOk {H : List (RwMsg n InsertArgs RlUpd)} {z : RwSets n (RlAse n)}
    (h : RwClosed (rlKind n) H z) (hH : CausalHist H) : z.ValueOk := by
  refine ⟨h.value.none, fun c hc => ?_⟩
  obtain ⟨a, ha, rfl⟩ := h.value.mem c hc
  refine ⟨a, ha, rfl, fun b hb hne => ?_⟩
  exact lt_of_le_of_ne (h.value.le _ hc b hb) fun hid => hne (h.origin hH hb ha hid)

/-! ## Runs -/

/-- The length is the number of elements of the chain with `LOOKUP`, which are all such elements;
`value` is the entry with the greatest origin id; and `rllist` announces as many entries as it
emits. -/
structure RlLenOk (x : RlSt n) : Prop where
  len : ∃ l, Chain x.ht.nexts x.ht.headD l ∧
    rllen x.ht = some ((l.countP fun k => (x.ht.node k).body.lookup : ℕ) : ℤ) ∧
    ∀ k, (x.ht.node k).body.lookup = true → k ∈ l
  value : ∀ k, (x.ht.node k).body.ValueOk
  list : ∃ es, rllist x.ht = some (es.length, es)

/-- In every run with unique fresh ids that are none of the words, with identifiers that fit the
decoder's buffer, and every order of reception. -/
theorem rl_length {s : Sys (Fin n) (Option (RlSt n)) (RlMsg n)}
    (hs : (rlObj n).Reach rlListGuard s) (r : Fin n) : ∃ x, s.st r = some x ∧ RlLenOk x := by
  have hg := rlGuard_of_list hs
  obtain ⟨x, hx, htr, -⟩ := (rl_causal hg).2 r
  obtain ⟨l, hl, hlen⟩ := htr.length (rl_log hs).good (rl_insLog hs) (rl_hist hg hx).1
  refine ⟨x, hx, ⟨l, hl.chain, ?_, htr.mem_chain hl⟩, fun k => ?_, ?_⟩
  · rw [rllen, htr.typed.getLen_eq, hlen]
  · exact (rl_rwClosed hg hx k).valueOk (rl_causalHist hg hx k)
  · obtain ⟨l', hl'⟩ := (rl_ofInserts hs hx).ordered
    obtain rfl := hl'.listed.chain.unique hl.chain
    obtain ⟨es, hes, hmap⟩ := rl_list hg hx hl'
    have hcount := congrArg List.length hmap
    rw [List.length_map, List.length_map, ← List.countP_eq_length_filter] at hcount
    exact ⟨es, by rw [hes, hlen, hcount]⟩

/-- The condition holds of a run in which an element is removed and added again. -/
theorem rl_length_demo : ∃ x, ((rlObj 2).runOf rlDemo).st 1 = some x ∧ RlLenOk x :=
  rl_length (Obj.reach_runOf rlListGuard_of_ok rlDemo (by decide +kernel)) 1

/-- Runs as in `rlListGuard`, with identifiers of every length. -/
def rlNamesGuard (s : Sys (Fin n) (Option (RlSt n)) (RlMsg n)) (e : Ev (Fin n) LCmd) : Prop :=
  (match e with
    | .op _ o _ => ∀ k ∈ o.names, k ∉ rlNames
    | .recv _ _ => True) ∧ rlUnique s e ∧ rlNotNull s e

/-- **An insert that is accepted can leave no list**, after 1024 inserts in front. -/
theorem rl_length_lost : ∃ s, (rlObj 1).Reach rlNamesGuard s ∧ s.st 0 = none := by
  obtain ⟨s, x, m, hs, hlog, hp, ⟨content, args, c, hm⟩, he, -⟩ := rl_overflow
  have hs' : (rlObj 1).Reach rlNamesGuard s := hs.mono fun s e h => ⟨by
    cases e with
    | op r o i => exact h.1.1
    | recv r i => trivial, h.2⟩
  have hnone := log_next hlog
  refine ⟨(rlObj 1).issue s 0 1024 (some x) m, .step (.op 0 (insertFront (frontId 1024) 0) 1024) hs'
    ⟨insertFront_names (by decide) (frontId_notMem 1024 (by decide)), ?_, ?_⟩
    (by simp [Obj.step, hp, hnone]), by simpa using he⟩
  · rintro m' hm' _ q m'' ⟨j, -, o, hj⟩ _ heq
    rw [hp] at hm'
    obtain rfl := Option.some.inj hm'
    have hlt := hlog j _ hj
    have := frontId_injective (hlt.2.symm.trans (heq.trans (by rw [hm]; rfl)))
    omega
  · intro m' hm' _
    rw [hp] at hm'
    obtain rfl := Option.some.inj hm'
    rw [hm]
    exact frontId_not_word 1024 (by decide)

end CrdtRedis
