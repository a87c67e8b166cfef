import CrdtRedis.ListBasics
import Mathlib.Data.List.Sort

/-!
# The order of a list

What the list commands reply, and in which order. The search of `link` starts at the element that
the insert names, so the chain stays ordered by the identifiers only if that element is before the
new one (`Placed.ordered`). Two chains of the same elements in this order are equal
(`Ordered.unique`).

* `InsLog`, `OfInserts`: what holds of the inserts that were sent, and of a list that is made by
  them. One insert keeps it (`OfInserts.added`), and all such lists have one order
  (`OfInserts.agree`).
* `Added.insertedAfter`: the effect of an insert where it was issued.
-/

namespace CrdtRedis

open Linked

namespace Ht

variable {n : ℕ} {X E F : Type}

/-! ## Listing -/

/-- The reply of the list commands: the length, and the entries of the elements that are present,
from the head on. -/
def listing (present : X → Bool) (entry : Node X → Option E) (ht : Ht n X) :
    Option (ℤ × List E) :=
  ht.getLen.bind fun len =>
    ht.getHead.bind fun h =>
      (cells ht.nexts ht.alloc.length h).bind fun l =>
        ((l.filter fun k => present (ht.node k).body).mapM fun k => entry (ht.node k)).map
          fun es => (len, es)

theorem mapM_map {α : Type} {f : α → Option E} {g : E → F} {h : α → F} {l : List α}
    (hf : ∀ a ∈ l, ∃ b, f a = some b ∧ g b = h a) :
    ∃ bs, l.mapM f = some bs ∧ bs.map g = l.map h := by
  induction l with
  | nil => exact ⟨[], rfl, rfl⟩
  | cons a l ih =>
    obtain ⟨b, hb, hg⟩ := hf a (by simp)
    obtain ⟨bs, hbs, hmap⟩ := ih fun a ha => hf a (by simp [ha])
    exact ⟨b :: bs, by simp [List.mapM_cons, hb, hbs], by simp [hg, hmap]⟩

variable {N : List Sds} {ht ht' : Ht n X} {l l' : List Sds}

/-- The reply of a list with the chain `l`, seen through `g`. -/
theorem listing_eq (present : X → Bool) (entry : Node X → Option E) {g : E → F} {f : Sds → F}
    (h : Typed N ht) (hs : Sound ht) (hl : Listed ht l)
    (he : ∀ k ∈ l, present (ht.node k).body → ∃ e, entry (ht.node k) = some e ∧ g e = f k) :
    ∃ es, ht.listing present entry = some (ht.lenD, es) ∧
      es.map g = (l.filter fun k => present (ht.node k).body).map f := by
  have hlen : l.length ≤ ht.alloc.length :=
    (hl.chain.nodup.subperm fun k hk => hs.alloc k ((hl.mem k).mp hk)).length_le
  obtain ⟨es, hes, hmap⟩ := mapM_map (f := fun k => entry (ht.node k)) (g := g) (h := f)
    (l := l.filter fun k => present (ht.node k).body)
    fun k hk => he k (List.mem_filter.mp hk).1 (List.mem_filter.mp hk).2
  exact ⟨es, by simp [listing, h.getLen_eq, h.getHead_eq, cells_eq hl.chain hlen, hes], hmap⟩

/-! ## The number of elements present -/

section Count

variable {f g : Sds → Bool} {id : Sds} {l l' : List Sds}

/-- A change of one element's existence changes the count. -/
theorem countP_update (hl : l.Nodup) (hid : id ∈ l) (h : ∀ k ≠ id, g k = f k) :
    (l.countP g : ℤ) + (if f id then 1 else 0) = l.countP f + (if g id then 1 else 0) := by
  induction l with
  | nil => cases hid
  | cons a l ih =>
    obtain ⟨ha, hl'⟩ := List.nodup_cons.mp hl
    rw [List.countP_cons, List.countP_cons]
    by_cases hai : a = id
    · subst hai
      have : l.countP g = l.countP f := List.countP_congr fun k hk => by
        rw [h k (by rintro rfl; exact ha hk)]
      simp only [this, Nat.cast_add, Nat.cast_ite, Nat.cast_one, Nat.cast_zero]
      ring
    · have := ih hl' ((List.mem_cons.mp hid).resolve_left (Ne.symm hai))
      rw [h a hai]
      push_cast
      omega

/-- The same where the element may also be new in the list. -/
theorem countP_step (hl : l.Nodup) (h : ∀ k ≠ id, g k = f k)
    (hl' : l' = l ∨ (l'.Perm (id :: l) ∧ id ∉ l)) (hf : id ∉ l → f id = false)
    (hg : id ∉ l' → g id = false) :
    (l'.countP g : ℤ) + (if f id then 1 else 0) = l.countP f + (if g id then 1 else 0) := by
  have hcongr : id ∉ l → l.countP g = l.countP f := fun hid =>
    List.countP_congr fun k hk => by rw [h k (by rintro rfl; exact hid hk)]
  rcases hl' with rfl | ⟨hperm, hid⟩
  · by_cases hid : id ∈ l'
    · exact countP_update hl hid h
    · rw [hcongr hid, hf hid, hg hid]
  · rw [hperm.countP_eq, List.countP_cons, hcongr hid, hf hid]
    simp

end Count

/-! ## The order -/

/-- The key of the identifier of element `k`. -/
def posKey (ht : Ht n X) (k : Sds) : List (ℤ ×ₗ (ℤ ×ₗ ℤ)) := ((ht.node k).posId.getD []).key

/-- The chain from the head is `l`, with increasing identifiers. -/
structure Ordered (ht : Ht n X) (l : List Sds) : Prop where
  listed : Listed ht l
  sorted : l.Pairwise fun a b => ht.posKey a < ht.posKey b

theorem Ordered.new {r : Fin n} {x : Sds → X} : Ordered (Ht.new r x) [] := ⟨.new, .nil⟩

theorem Kept.ordered (h : Kept ht ht') (ho : Ordered ht l) : Ordered ht' l :=
  ⟨h.listed ho.listed, by simpa [posKey, h.posId] using ho.sorted⟩

theorem pairwise_insert {α : Type} {R : α → α → Prop} {a b : List α} {e : α}
    (h : (a ++ b).Pairwise R) (ha : ∀ q ∈ a, R q e) (hb : ∀ q ∈ b, R e q) :
    (a ++ e :: b).Pairwise R := by
  obtain ⟨h₁, h₂, h₃⟩ := List.pairwise_append.mp h
  refine List.pairwise_append.mpr ⟨h₁, List.pairwise_cons.mpr ⟨hb, h₂⟩, fun q hq q' hq' => ?_⟩
  rcases List.mem_cons.mp hq' with rfl | hq'
  · exact ha q hq
  · exact h₃ q hq q' hq'

/-- A new element keeps the order, if the element that its insert names is before it. -/
theorem Placed.ordered {x : Leid} {prev e : Sds} (hp : Placed ht x prev e l l')
    (ho : l.Pairwise fun a b => ht.posKey a < ht.posKey b)
    (hne : ∀ q ∈ l, (ht.node q).posId ≠ some x)
    (hprev : ∀ y, (ht.node prev).posId = some y → y.key < x.key)
    (hmem : ∀ q ∈ l, (ht.node q).posId.isSome)
    (hkey : ∀ q ∈ l, ht'.posKey q = ht.posKey q) (he : ht'.posKey e = x.key) :
    l'.Pairwise fun a b => ht'.posKey a < ht'.posKey b := by
  have hcongr : l.Pairwise fun a b => ht'.posKey a < ht'.posKey b :=
    ho.imp_of_mem fun ha hb h => by rwa [hkey _ ha, hkey _ hb]
  have hsome : ∀ q y, (ht.node q).posId = some y → ht.posKey q = y.key := fun q y hy => by
    simp [posKey, hy]
  have hlt : ∀ q ∈ l, ∀ y, (ht.node q).posId = some y → ¬ x.key < y.key → ht'.posKey q < x.key :=
    fun q hq y hy hn => by
      rw [hkey q hq, hsome q y hy]
      refine lt_of_le_of_ne (not_lt.mp hn) fun h => hne q hq ?_
      rw [hy, Leid.key_injective h]
  have hgt : ∀ q ∈ l, ∀ y, (ht.node q).posId = some y → ¬ y.key < x.key → x.key < ht'.posKey q :=
    fun q hq y hy hn => by
      rw [hkey q hq, hsome q y hy]
      refine lt_of_le_of_ne (not_lt.mp hn) fun h => hne q hq ?_
      rw [hy, Leid.key_injective h]
  cases hp with
  | front _ hfront =>
    refine pairwise_insert (a := []) hcongr (by simp) fun q hq => ?_
    rw [he]
    cases l with
    | nil => cases hq
    | cons h₀ l =>
      obtain ⟨y, hy, hxy⟩ := hfront h₀ rfl
      have h₀' := hgt h₀ (by simp) y hy (leidCmp_lt_zero.mp hxy).asymm
      rcases List.mem_cons.mp hq with rfl | hq
      · exact h₀'
      · exact h₀'.trans ((List.pairwise_cons.mp hcongr).1 q hq)
  | after c s a b hs hpass hstop =>
    have hsx : ht'.posKey s < x.key := by
      rcases hs with rfl | ⟨-, y, hy, hn⟩
      · obtain ⟨y, hy⟩ := Option.isSome_iff_exists.mp (hmem s (by simp))
        exact hlt s (by simp) y hy (hprev y hy).asymm
      · exact hlt s (by simp) y hy fun h => hn (leidCmp_lt_zero.mpr h)
    have hsplit : c ++ s :: (a ++ b) = (c ++ s :: a) ++ b := by simp
    have hres : c ++ s :: (a ++ e :: b) = (c ++ s :: a) ++ e :: b := by simp
    rw [hres]
    refine pairwise_insert (hsplit ▸ hcongr) (fun q hq => ?_) fun q hq => ?_
    · rw [he]
      rcases List.mem_append.mp hq with hq | hq
      · exact ((List.pairwise_append.mp hcongr).2.2 q hq s (by simp)).trans hsx
      · rcases List.mem_cons.mp hq with rfl | hq
        · exact hsx
        · obtain ⟨y, hy, hxy⟩ := hpass q hq
          exact hlt q (by simp [hq]) y hy (leidCmp_pos.mp hxy).asymm
    · rw [he]
      cases b with
      | nil => cases hq
      | cons h₀ b =>
        obtain ⟨y, hy, hxy⟩ := hstop h₀ rfl
        have h₀' := hgt h₀ (by simp) y hy fun h => hxy (leidCmp_pos.mpr h)
        rcases List.mem_cons.mp hq with rfl | hq
        · exact h₀'
        · have htail := (List.pairwise_append.mp (hsplit ▸ hcongr)).2.1
          exact h₀'.trans ((List.pairwise_cons.mp htail).1 q hq)

/-- A first insert keeps the order. -/
theorem Added.ordered {prev id content : Sds} {pos : Leid} (h : Added ht ht' prev id content pos)
    (ho : Ordered ht l) (hid : (ht.node id).posId = none) (hpi : prev ≠ id)
    (hne : ∀ q ∈ l, (ht.node q).posId ≠ some pos)
    (hprev : ∀ y, (ht.node prev).posId = some y → y.key < pos.key) : ∃ l', Ordered ht' l' := by
  obtain ⟨l', hl', hp⟩ := h.listed l ho.listed hpi
  have hpos : ∀ k, (ht'.node k).posId = if k = id then some pos else (ht.node k).posId := by
    intro k
    have := congrFun h.posId k
    simpa [Function.update_apply] using this
  refine ⟨l', hl', hp.ordered ho.sorted hne hprev (fun q hq => (ho.listed.mem q).mp hq)
    (fun q hq => ?_) (by simp [posKey, hpos])⟩
  have hqi : q ≠ id := by
    rintro rfl
    have := (ho.listed.mem q).mp hq
    simp [hid] at this
  simp [posKey, hpos, hqi]

/-- Elements with the same identifiers are in the same order. -/
theorem Ordered.unique (h : Ordered ht l) (h' : Ordered ht' l')
    (hpos : ∀ k, (ht.node k).posId = (ht'.node k).posId) : l = l' := by
  have hmem : ∀ k, k ∈ l ↔ k ∈ l' := fun k => by rw [h.listed.mem, h'.listed.mem, hpos]
  have hkey : ht'.posKey = ht.posKey := by funext k; simp [posKey, hpos]
  have hperm : l.Perm l' :=
    (List.perm_ext_iff_of_nodup h.listed.chain.nodup h'.listed.chain.nodup).mpr hmem
  exact hperm.eq_of_pairwise (fun a b _ _ hab hba => absurd hba hab.asymm) h.sorted
    (hkey ▸ h'.sorted)

/-- An ordered chain has `a` before `b` if the identifier of `a` is smaller. -/
theorem Ordered.pair_sublist_iff (h : Ordered ht l) {a b : Sds} :
    [a, b].Sublist l ↔ a ∈ l ∧ b ∈ l ∧ ht.posKey a < ht.posKey b := by
  constructor
  · intro hs
    exact ⟨hs.subset (by simp), hs.subset (by simp), by simpa using h.sorted.sublist hs⟩
  · rintro ⟨ha, hb, hlt⟩
    obtain ⟨l₁, l₂, rfl⟩ := List.append_of_mem ha
    have hcross := (List.pairwise_append.mp h.sorted).2.2
    rcases List.mem_append.mp hb with hb | hb
    · exact absurd (hcross b hb a (by simp)) hlt.asymm
    · rcases List.mem_cons.mp hb with rfl | hb
      · exact absurd hlt (lt_irrefl _)
      · exact ((List.singleton_sublist.mpr hb).cons_cons a).trans (List.sublist_append_right _ _)

/-- The chain from the head has every element with an `oid` once and nothing else, and it is
strictly increasing under `leid_cmp`. -/
structure Increasing (ht : Ht n X) (l : List Sds) : Prop where
  chain : Chain ht.nexts ht.headD l
  nodup : l.Nodup
  mem : ∀ k, k ∈ l ↔ (ht.node k).oid.isSome
  increasing : l.Pairwise fun a b => ∃ x y,
    (ht.node a).posId = some x ∧ (ht.node b).posId = some y ∧ leidCmp x y < 0

theorem Ordered.increasing (h : Ordered ht l) (hs : Sound ht) : Increasing ht l := by
  refine ⟨h.listed.chain, h.listed.chain.nodup, fun k => by rw [h.listed.mem, hs.oid], ?_⟩
  refine h.sorted.imp_of_mem fun {a b} ha hb hlt => ?_
  obtain ⟨x, hx⟩ := Option.isSome_iff_exists.mp ((h.listed.mem a).mp ha)
  obtain ⟨y, hy⟩ := Option.isSome_iff_exists.mp ((h.listed.mem b).mp hb)
  exact ⟨x, y, hx, hy, leidCmp_lt_zero.mpr (by simpa [posKey, hx, hy] using hlt)⟩

/-! ## The inserts of a run -/

/-- An insert: the name and the identifier of its element, and the element that it names. -/
structure Ins where
  prev : Sds
  id : Sds
  pos : Leid

/-- What holds of the inserts that have been sent: elements and identifiers belong together, the
element that an insert names is before its own, and `null` names none. -/
structure InsLog (sent : Ins → Prop) : Prop where
  once : ∀ i j, sent i → sent j → i.id = j.id → i.pos = j.pos
  pos : ∀ i j, sent i → sent j → i.pos = j.pos → i.id = j.id
  prev : ∀ i j, sent i → sent j → i.id = j.prev → i.pos.key < j.pos.key
  null : ∀ i, sent i → strEq i.id nullWord = false
  wf : ∀ i, sent i → i.pos.Wf

/-- A list made by inserts that have been sent. -/
structure OfInserts (sent : Ins → Prop) (ht : Ht n X) : Prop where
  ordered : ∃ l, Ordered ht l
  placed : ∀ k x, (ht.node k).posId = some x → ∃ i, sent i ∧ i.id = k ∧ i.pos = x

section Inserts

variable {sent sent' : Ins → Prop}

theorem InsLog.congr (h : InsLog sent) (hs : ∀ i, sent' i ↔ sent i) : InsLog sent' := by
  obtain rfl : sent' = sent := funext fun i => propext (hs i)
  exact h

/-- An insert of a new element. -/
theorem InsLog.fresh (h : InsLog sent) {i : Ins} (hid : ∀ j, sent j → j.id ≠ i.id)
    (hpos : ∀ j, sent j → j.pos ≠ i.pos)
    (hprev : ∀ j, sent j → j.id = i.prev → j.pos.key < i.pos.key) (hself : i.prev ≠ i.id)
    (hname : ∀ j, sent j → j.prev ≠ i.id) (hnull : strEq i.id nullWord = false) (hwf : i.pos.Wf) :
    InsLog fun j => sent j ∨ j = i := by
  refine ⟨?_, ?_, ?_, ?_, ?_⟩
  · rintro j k (hj | rfl) (hk | rfl) heq
    · exact h.once j k hj hk heq
    · exact absurd heq (hid j hj)
    · exact absurd heq.symm (hid k hk)
    · rfl
  · rintro j k (hj | rfl) (hk | rfl) heq
    · exact h.pos j k hj hk heq
    · exact absurd heq (hpos j hj)
    · exact absurd heq.symm (hpos k hk)
    · rfl
  · rintro j k (hj | rfl) (hk | rfl) heq
    · exact h.prev j k hj hk heq
    · exact hprev j hj heq
    · exact absurd heq.symm (hname k hk)
    · exact absurd heq.symm hself
  · rintro j (hj | rfl)
    · exact h.null j hj
    · exact hnull
  · rintro j (hj | rfl)
    · exact h.wf j hj
    · exact hwf

/-- An insert of an element that has been inserted, with the identifier of it, which names none. -/
theorem InsLog.again (h : InsLog sent) {i f : Ins} (hf : sent f) (hid : f.id = i.id)
    (hpos : f.pos = i.pos) (hname : ∀ j, sent j → j.id ≠ i.prev) :
    InsLog fun j => sent j ∨ j = i := by
  refine ⟨?_, ?_, ?_, ?_, ?_⟩
  · rintro j k (hj | rfl) (hk | rfl) heq
    · exact h.once j k hj hk heq
    · exact (h.once j f hj hf (heq.trans hid.symm)).trans hpos
    · exact hpos.symm.trans (h.once f k hf hk (hid.trans heq))
    · rfl
  · rintro j k (hj | rfl) (hk | rfl) heq
    · exact h.pos j k hj hk heq
    · exact (h.pos j f hj hf (heq.trans hpos.symm)).trans hid
    · exact hid.symm.trans (h.pos f k hf hk (hpos.trans heq))
    · rfl
  · rintro j k (hj | rfl) (hk | rfl) heq
    · exact h.prev j k hj hk heq
    · exact absurd heq (hname j hj)
    · exact hpos ▸ h.prev f k hf hk (hid.trans heq)
    · exact absurd (hid.trans heq) (hname f hf)
  · rintro j (hj | rfl)
    · exact h.null j hj
    · exact hid ▸ h.null f hf
  · rintro j (hj | rfl)
    · exact h.wf j hj
    · exact hpos ▸ h.wf f hf

theorem OfInserts.new {r : Fin n} {x : Sds → X} : OfInserts sent (Ht.new r x) :=
  ⟨⟨[], .new⟩, by simp [Ht.new, Node.new]⟩

theorem OfInserts.mono (h : OfInserts sent ht) (hs : ∀ i, sent i → sent' i) : OfInserts sent' ht :=
  ⟨h.ordered, fun k x hx => by
    obtain ⟨i, hi, hix⟩ := h.placed k x hx
    exact ⟨i, hs i hi, hix⟩⟩

theorem OfInserts.kept (h : OfInserts sent ht) (hk : Kept ht ht') : OfInserts sent ht' := by
  obtain ⟨l, hl⟩ := h.ordered
  exact ⟨⟨l, hk.ordered hl⟩, fun k x hx => h.placed k x (by rw [← hk.posId, hx])⟩

/-- A first insert keeps the list one that is made by inserts. -/
theorem OfInserts.added {i : Ins} {content : Sds} (h : OfInserts sent ht) (hL : InsLog sent)
    (hi : sent i) (hid : (ht.node i.id).posId = none)
    (ha : Added ht ht' i.prev i.id content i.pos) : OfInserts sent ht' := by
  obtain ⟨l, hl⟩ := h.ordered
  refine ⟨ha.ordered hl hid (fun hpi => ?_) (fun q _ hq => ?_) fun y hy => ?_, fun k x hx => ?_⟩
  · exact absurd (hL.prev i i hi hi hpi.symm) (lt_irrefl _)
  · obtain ⟨j, hj, rfl, hpos⟩ := h.placed q _ hq
    rw [hL.pos j i hj hi hpos, hid] at hq
    cases hq
  · obtain ⟨j, hj, hjp, rfl⟩ := h.placed _ y hy
    exact hL.prev j i hj hi hjp
  · have hpos : (ht'.node k).posId = if k = i.id then some i.pos else (ht.node k).posId := by
      have := congrFun ha.posId k
      simpa [Function.update_apply] using this
    rw [hpos] at hx
    split at hx
    · rename_i hk
      exact ⟨i, hi, hk.symm, Option.some.inj hx⟩
    · exact h.placed k x hx

/-- An element has one identifier at every replica. -/
theorem OfInserts.posKey_eq (h : OfInserts sent ht) (h' : OfInserts sent ht') (hL : InsLog sent)
    {k : Sds} (hk : (ht.node k).posId.isSome) (hk' : (ht'.node k).posId.isSome) :
    ht.posKey k = ht'.posKey k := by
  obtain ⟨x, hx⟩ := Option.isSome_iff_exists.mp hk
  obtain ⟨y, hy⟩ := Option.isSome_iff_exists.mp hk'
  obtain ⟨i, hi, hik, rfl⟩ := h.placed k x hx
  obtain ⟨j, hj, hjk, rfl⟩ := h'.placed k y hy
  simp [posKey, hx, hy, hL.once i j hi hj (hik.trans hjk.symm)]

/-- **Two lists order their common elements in the same way.** -/
theorem OfInserts.agree (h : OfInserts sent ht) (h' : OfInserts sent ht') (hL : InsLog sent)
    (ho : Ordered ht l) (ho' : Ordered ht' l') {a b : Sds} (ha : a ∈ l) (hb : b ∈ l) (ha' : a ∈ l')
    (hb' : b ∈ l') : [a, b].Sublist l ↔ [a, b].Sublist l' := by
  have hkey : ∀ k, k ∈ l → k ∈ l' → ht.posKey k = ht'.posKey k := fun k hk hk' =>
    h.posKey_eq h' hL ((ho.listed.mem k).mp hk) ((ho'.listed.mem k).mp hk')
  rw [ho.pair_sublist_iff, ho'.pair_sublist_iff, hkey a ha ha', hkey b hb hb']
  simp [ha, hb, ha', hb']

/-- The element that an insert names is before its own, wherever both are. -/
theorem OfInserts.before {i : Ins} (h : OfInserts sent ht) (hL : InsLog sent) (hi : sent i)
    (hc : Chain ht.nexts ht.headD l) (hp : i.prev ∈ l) (hid : i.id ∈ l) :
    [i.prev, i.id].Sublist l := by
  obtain ⟨l₁, ho⟩ := h.ordered
  obtain rfl := ho.listed.chain.unique hc
  refine ho.pair_sublist_iff.mpr ⟨hp, hid, ?_⟩
  obtain ⟨x, hx⟩ := Option.isSome_iff_exists.mp ((ho.listed.mem _).mp hp)
  obtain ⟨y, hy⟩ := Option.isSome_iff_exists.mp ((ho.listed.mem _).mp hid)
  obtain ⟨j, hj, hjp, rfl⟩ := h.placed _ x hx
  obtain ⟨f, hf, hfid, rfl⟩ := h.placed _ y hy
  simpa [posKey, hx, hy, hL.once f i hf hi hfid] using hL.prev j i hj hi hjp

end Inserts

/-! ## The effect of an insert where it was issued -/

/-- Element `id` is in the chain, right after `prev`, or first if `prev` is `null`. -/
def InsertedAfter (ht : Ht n X) (prev id : Sds) : Prop :=
  ∃ a b, Chain ht.nexts ht.headD (a ++ id :: b) ∧
    if strEq prev nullWord then a = [] else a.getLast? = some prev

/-- A first insert puts its element where its identifier is. -/
theorem Added.between {prev id content : Sds} {pos : Leid} {a b : List Sds}
    (h : Added ht ht' prev id content pos) (ho : Ordered ht (a ++ b))
    (hid : (ht.node id).posId = none) (hpi : prev ≠ id) (ha : ∀ q ∈ a, ht.posKey q < pos.key)
    (hb : ∀ q ∈ b, pos.key < ht.posKey q)
    (hprev : ∀ y, (ht.node prev).posId = some y → y.key < pos.key) :
    Ordered ht' (a ++ id :: b) := by
  have hne : ∀ q ∈ a ++ b, (ht.node q).posId ≠ some pos := by
    intro q hq hx
    have hkey : ht.posKey q = pos.key := by simp [posKey, hx]
    rcases List.mem_append.mp hq with hq | hq
    · exact (ha q hq).ne hkey
    · exact (hb q hq).ne' hkey
  obtain ⟨l', hl'⟩ := h.ordered ho hid hpi hne hprev
  have hpos : ∀ k, (ht'.node k).posId = if k = id then some pos else (ht.node k).posId := by
    intro k
    have := congrFun h.posId k
    simpa [Function.update_apply] using this
  have hkey : ∀ q ∈ a ++ b, ht'.posKey q = ht.posKey q := fun q hq => by
    have hqi : q ≠ id := by
      rintro rfl
      have := (ho.listed.mem q).mp hq
      simp [hid] at this
    simp [posKey, hpos, hqi]
  have hself : ht'.posKey id = pos.key := by simp [posKey, hpos]
  have hsorted : (a ++ id :: b).Pairwise fun p q => ht'.posKey p < ht'.posKey q := by
    refine pairwise_insert (ho.sorted.imp_of_mem fun hp hq hlt => ?_) (fun q hq => ?_)
      fun q hq => ?_
    · rwa [hkey _ hp, hkey _ hq]
    · rw [hkey q (by simp [hq]), hself]; exact ha q hq
    · rw [hkey q (by simp [hq]), hself]; exact hb q hq
  have hmem : ∀ k, k ∈ a ++ id :: b ↔ k ∈ l' := fun k => by
    have := ho.listed.mem k
    rw [hl'.listed.mem, hpos]
    by_cases hk : k = id <;> simp_all
  have hperm : (a ++ id :: b).Perm l' :=
    (List.perm_ext_iff_of_nodup (hsorted.imp fun hlt => ne_of_apply_ne _ hlt.ne)
      hl'.listed.chain.nodup).mpr hmem
  rw [hperm.eq_of_pairwise (fun p q _ _ hpq hqp => absurd hqp hpq.asymm) hsorted hl'.sorted]
  exact hl'

/-- The identifier of a new element is below those on its right. -/
theorem constructLeid_lt_right {left : Option Leid} {c : Clock n} {rand : ℕ} {b : List Sds}
    (hsome : ∀ q ∈ b, (ht.node q).posId.isSome)
    (hwf : ∀ k x, (ht.node k).posId = some x → x.Wf)
    (hb : b.Pairwise fun p q => ht.posKey p < ht.posKey q)
    (hleft : ∀ y ∈ left, ∀ q ∈ b, y.key < ht.posKey q) :
    ∀ q ∈ b, (constructLeid left (b.head?.bind fun q => (ht.node q).posId) c rand).key <
      ht.posKey q := by
  cases b with
  | nil => simp
  | cons h₀ b =>
    obtain ⟨z, hz⟩ := Option.isSome_iff_exists.mp (hsome h₀ (by simp))
    have hkey : ht.posKey h₀ = z.key := by simp [posKey, hz]
    have hlt : (constructLeid left (some z) c rand).key < ht.posKey h₀ := by
      rw [hkey]
      exact constructLeid_lt (fun y hy => hkey ▸ hleft y hy h₀ (by simp)) (hwf h₀ z hz)
    simp only [List.head?_cons, Option.bind_some, hz]
    intro q hq
    rcases List.mem_cons.mp hq with rfl | hq
    · exact hlt
    · exact hlt.trans ((List.pairwise_cons.mp hb).1 q hq)

/-- **An insert puts its element right after the one that it names**, if the list has not changed
since the identifier was made. -/
theorem Added.insertedAfter {present : X → Bool} {prev prev' id content : Sds} {c : Clock n}
    {rand : ℕ}
    (h : Added ht ht' prev' id content
      (constructLeid (ht.node prev).posId (ht.rightOf prev) c rand))
    (ho : Ordered ht l) (hid : (ht.node id).posId = none)
    (hnull : ∀ k, (ht.node k).posId.isSome → strEq k nullWord = false)
    (hidn : strEq id nullWord = false) (hwf : ∀ k x, (ht.node k).posId = some x → x.Wf)
    (hprev : PrevSent present ht prev prev') (hre : strEq prev' readdWord = false) :
    InsertedAfter ht' prev' id := by
  have hsome : ∀ q ∈ l, (ht.node q).posId.isSome := fun q hq => (ho.listed.mem q).mp hq
  rcases hprev with ⟨rfl, hp, -⟩ | ⟨rfl, hp, hw⟩
  · obtain ⟨y, hy⟩ := Option.isSome_iff_exists.mp hp
    obtain ⟨a, b, rfl⟩ := List.append_of_mem ((ho.listed.mem prev').mpr hp)
    have hright : ht.rightOf prev' = b.head?.bind fun q => (ht.node q).posId := by
      simp only [rightOf, if_pos hp, ← ho.listed.chain.drop.head_eq]
      rfl
    have hkey : ht.posKey prev' = y.key := by simp [posKey, hy]
    have hlt : y.key < (constructLeid (ht.node prev').posId (ht.rightOf prev') c rand).key := by
      rw [hy]; exact lt_constructLeid
    obtain ⟨-, htail, hcross⟩ := List.pairwise_append.mp ho.sorted
    have hsplit : a ++ prev' :: b = (a ++ [prev']) ++ b := by simp
    refine ⟨a ++ [prev'], b, (h.between (hsplit ▸ ho) hid ?_ (fun q hq => ?_) ?_ fun z hz => ?_
      ).listed.chain, ?_⟩
    · rintro rfl
      simp [hid] at hp
    · rcases List.mem_append.mp hq with hq | hq
      · exact (hkey ▸ hcross q hq prev' (by simp)).trans hlt
      · rw [List.mem_singleton.mp hq, hkey]; exact hlt
    · rw [hright]
      refine constructLeid_lt_right (fun q hq => hsome q (by simp [hq])) hwf
        (List.pairwise_cons.mp htail).2 fun z hz q hq => ?_
      obtain rfl : z = y := by simpa [hy] using hz.symm
      exact hkey ▸ (List.pairwise_cons.mp htail).1 q hq
    · obtain rfl : z = y := by simpa [hy] using hz.symm
      exact hlt
    · simp [hnull prev' hp]
  · have hn : strEq (sdstolower prev) nullWord = true := hw.resolve_right (by simp [hre])
    have hright : ht.rightOf prev = l.head?.bind fun q => (ht.node q).posId := by
      simp [rightOf, hp, ho.listed.chain.head_eq]
    refine ⟨[], l, (h.between (a := []) ho hid ?_ (by simp) ?_ fun z hz => ?_).listed.chain,
      by simp [hn]⟩
    · intro heq
      rw [heq, hidn] at hn
      cases hn
    · rw [hright, hp]
      exact constructLeid_lt_right hsome hwf ho.sorted (by simp)
    · have := hnull _ (Option.isSome_of_mem hz)
      rw [hn] at this
      cases this

/-- The same for a list that is made by inserts. -/
theorem OfInserts.insertedAfter {sent : Ins → Prop} {present : X → Bool}
    {prev prev' id content : Sds} {c : Clock n} {rand : ℕ} (h : OfInserts sent ht)
    (hL : InsLog sent) (ha : Added ht ht' prev' id content
      (constructLeid (ht.node prev).posId (ht.rightOf prev) c rand))
    (hid : (ht.node id).posId = none) (hidn : strEq id nullWord = false)
    (hprev : PrevSent present ht prev prev') (hre : strEq prev' readdWord = false) :
    InsertedAfter ht' prev' id := by
  obtain ⟨l, ho⟩ := h.ordered
  refine ha.insertedAfter ho hid (fun k hk => ?_) hidn (fun k y hy => ?_) hprev hre
  · obtain ⟨y, hy⟩ := Option.isSome_iff_exists.mp hk
    obtain ⟨j, hj, rfl, -⟩ := h.placed k y hy
    exact hL.null j hj
  · obtain ⟨j, hj, -, rfl⟩ := h.placed k y hy
    exact hL.wf j hj

end Ht

end CrdtRedis
