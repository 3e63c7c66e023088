import Mathlib.Data.List.Chain
import Mathlib.Data.List.Nodup

/-! # Circular doubly linked lists

A ring threaded through `next` and `prev` is kept beside the pointers as the list
of its nodes from the head on (`IsRing`). What a program does to one, put a node
before the head and take a node out, appends to that list (`IsRing.insert`) and
removes from it (`IsRing.remove`), and a loop from the head round to the head
again is a fold over it (`IsRing.walk_eq`). -/
namespace SynapseKernel.Ring

variable {next prev next' prev' : Nat → Nat} {l m : List Nat} {a x : Nat}

/-- Two neighbours point at each other. -/
def Adjacent (next prev : Nat → Nat) (x y : Nat) : Prop := next x = y ∧ prev y = x

structure IsRing (next prev : Nat → Nat) (l : List Nat) : Prop where
  nodup : l.Nodup
  chain : l.IsChain (Adjacent next prev)
  closed : ∀ x ∈ l.getLast?, ∀ y ∈ l.head?, Adjacent next prev x y

/-- One node that points at itself. -/
theorem isRing_singleton (hn : next x = x) (hp : prev x = x) : IsRing next prev [x] := by
  refine ⟨List.nodup_singleton x, List.isChain_singleton x, fun y hy z hz => ?_⟩
  obtain rfl := Option.some.inj hy
  obtain rfl := Option.some.inj hz
  exact ⟨hn, hp⟩

theorem isRing_pair {y : Nat} (hne : x ≠ y) (hnx : next x = y) (hpx : prev x = y)
    (hny : next y = x) (hpy : prev y = x) : IsRing next prev [x, y] := by
  refine ⟨List.nodup_cons.mpr ⟨fun hm => hne (List.mem_singleton.mp hm), List.nodup_singleton y⟩,
    List.isChain_pair.mpr ⟨hnx, hpy⟩, fun u hu v hv => ?_⟩
  obtain rfl := Option.some.inj hu
  obtain rfl := Option.some.inj hv
  exact ⟨hny, hpx⟩

theorem IsRing.congr (h : IsRing next prev l) (hl : ∀ x ∈ l, next' x = next x ∧ prev' x = prev x) :
    IsRing next' prev' l := by
  refine ⟨h.nodup, h.chain.imp_of_mem_imp fun x y hx hy hxy => ?_, fun x hx y hy => ?_⟩
  · exact ⟨(hl x hx).1.trans hxy.1, (hl y hy).2.trans hxy.2⟩
  · obtain ⟨hn, hp⟩ := h.closed x hx y hy
    exact ⟨(hl x (List.mem_of_getLast? hx)).1.trans hn, (hl y (List.mem_of_head? hy)).2.trans hp⟩

/-- The same ring seen from another node. -/
theorem IsRing.rotate (h : IsRing next prev (l ++ m)) : IsRing next prev (m ++ l) := by
  obtain ⟨hl, hm, hlink⟩ := List.isChain_append.mp h.chain
  cases l with
  | nil => rwa [List.append_nil]
  | cons a l =>
    cases m with
    | nil =>
      rw [List.append_nil] at h
      exact h
    | cons b m =>
      have hback : ∀ x ∈ (b :: m).getLast?, ∀ y ∈ (a :: l).head?, Adjacent next prev x y := by
        intro x hx y hy
        refine h.closed x ?_ y ?_
        · rw [List.getLast?_append_of_ne_nil _ (List.cons_ne_nil b m)]
          exact hx
        · exact hy
      refine ⟨List.nodup_append_comm.mp h.nodup, List.isChain_append.mpr ⟨hm, hl, hback⟩,
        fun x hx y hy => ?_⟩
      rw [List.getLast?_append_of_ne_nil _ (List.cons_ne_nil a l)] at hx
      exact hlink x hx y hy

/-- The pointers of the head of a ring of at least two nodes. -/
theorem IsRing.head_links (h : IsRing next prev (x :: l)) (hl : l ≠ []) :
    (∃ t, l = next x :: t) ∧ l.getLast? = some (prev x) ∧ next (prev x) = x ∧
      prev (next x) = x := by
  cases l with
  | nil => exact absurd rfl hl
  | cons b t =>
    obtain ⟨⟨hn, hp⟩, -⟩ := List.isChain_cons_cons.mp h.chain
    have hlast : (b :: t).getLast? = some ((b :: t).getLast hl) := List.getLast?_eq_getLast_of_ne_nil hl
    have hall : (x :: b :: t).getLast? = (b :: t).getLast? :=
      List.getLast?_append_of_ne_nil [x] (List.cons_ne_nil b t)
    obtain ⟨hn', hp'⟩ := h.closed _ (hall.trans hlast) x rfl
    refine ⟨⟨t, ?_⟩, ?_, ?_, ?_⟩
    · rw [hn]
    · rw [hlast, hp']
    · rw [hp', hn']
    · rw [hn, hp]

/-- The neighbours of a node are nodes. -/
theorem IsRing.mem_links (h : IsRing next prev (l ++ x :: m)) :
    prev x ∈ l ++ x :: m ∧ next x ∈ l ++ x :: m := by
  have hrot : IsRing next prev (x :: (m ++ l)) := h.rotate
  have hmem : ∀ y, y ∈ x :: (m ++ l) → y ∈ l ++ x :: m := fun y hy => by
    rw [List.mem_append, or_comm]
    exact List.mem_append.mp hy
  cases hml : m ++ l with
  | nil =>
    rw [hml] at hrot
    obtain ⟨hn, hp⟩ := hrot.closed x rfl x rfl
    rw [hn, hp]
    exact ⟨hmem x List.mem_cons_self, hmem x List.mem_cons_self⟩
  | cons b t =>
    rw [hml] at hrot hmem
    obtain ⟨⟨t', ht⟩, hlast, -⟩ := hrot.head_links (List.cons_ne_nil b t)
    refine ⟨hmem _ (List.mem_cons_of_mem _ (List.mem_of_getLast? hlast)), hmem _ ?_⟩
    rw [ht]
    exact List.mem_cons_of_mem _ List.mem_cons_self

/-- Following `next` from the head goes through the list. -/
theorem IsRing.iterate_eq (h : IsRing next prev (a :: l)) {k : Nat} (hk : (a :: l)[k]? = some x) :
    next^[k] a = x := by
  induction k generalizing x with
  | zero => exact Option.some.inj hk
  | succ k ih =>
    obtain ⟨hlt, rfl⟩ := List.getElem?_eq_some_iff.mp hk
    have hprev := ih (List.getElem?_eq_getElem (Nat.lt_of_succ_lt hlt))
    rw [Function.iterate_succ_apply', hprev]
    exact (List.isChain_iff_getElem.mp h.chain k hlt).1

/-- The successor of a node, that of the last one being the head. -/
theorem IsRing.next_eq (h : IsRing next prev (a :: l)) {pre post : List Nat}
    (he : a :: l = pre ++ x :: post) : next x = post.headD a := by
  cases post with
  | nil =>
    have hlast : (a :: l).getLast? = some x := by
      rw [he, List.getLast?_append_of_ne_nil _ (List.cons_ne_nil x [])]
      rfl
    exact (h.closed x hlast a rfl).1
  | cons y post =>
    have hchain := h.chain
    rw [he] at hchain
    exact (List.isChain_append_cons_cons.mp hchain).2.1.1

/-- A ring is closed before a node comes again, so no list from its head is longer. -/
theorem IsRing.length_le_of_head (h : IsRing next prev (a :: l)) (h' : IsRing next prev' (a :: m)) :
    m.length ≤ l.length := by
  by_contra hlt
  have hlast : (a :: l)[l.length]? = some ((a :: l).getLast (List.cons_ne_nil a l)) := by
    rw [← List.getLast?_eq_getLast_of_ne_nil, List.getLast?_eq_getElem?, List.length_cons,
      Nat.add_sub_cancel]
  have hend : next^[l.length + 1] a = a := by
    rw [Function.iterate_succ_apply', h.iterate_eq hlast]
    exact h.next_eq (List.dropLast_concat_getLast (List.cons_ne_nil a l)).symm
  have hlen : l.length + 1 < (a :: m).length := by
    rw [List.length_cons]
    omega
  have hagain := h'.iterate_eq (List.getElem?_eq_getElem hlen)
  have hzero : (a :: m)[l.length + 1] = (a :: m)[0] := hagain.symm.trans hend
  exact absurd ((List.Nodup.getElem_inj_iff h'.nodup).mp hzero) (Nat.succ_ne_zero _)

/-- The pointers and the head say what the list is. -/
theorem IsRing.tail_unique (h : IsRing next prev (a :: l)) (h' : IsRing next prev' (a :: m)) :
    l = m := by
  have hlen : (a :: l).length = (a :: m).length :=
    congrArg Nat.succ (Nat.le_antisymm (h'.length_le_of_head h) (h.length_le_of_head h'))
  refine (List.cons.inj (List.ext_getElem hlen fun k hl hm => ?_)).2
  have hk := h.iterate_eq (List.getElem?_eq_getElem hl)
  exact hk.symm.trans (h'.iterate_eq (List.getElem?_eq_getElem hm))

/-! ## Taking a node out -/

/-- The stores that take `x` out: `next'` and `prev'` differ from the pointers
before only in that the neighbours of `x` point at each other. -/
structure Unlinks (next prev next' prev' : Nat → Nat) (x : Nat) : Prop where
  next_prev : next' (prev x) = next x
  prev_next : prev' (next x) = prev x
  next_other : ∀ y, y ≠ prev x → next' y = next y
  prev_other : ∀ y, y ≠ next x → prev' y = prev y

/-- Following `next` stays in the ring. -/
theorem IsRing.iterate_mem (h : IsRing next prev l) (hx : x ∈ l) (k : Nat) : next^[k] x ∈ l := by
  induction k generalizing x with
  | zero => exact hx
  | succ k ih =>
    rw [Function.iterate_succ_apply]
    obtain ⟨l₁, l₂, rfl⟩ := List.append_of_mem hx
    exact ih h.mem_links.2

theorem IsRing.remove_head (h : IsRing next prev (x :: l))
    (hu : Unlinks next prev next' prev' x) : IsRing next' prev' l := by
  obtain ⟨hx, hnodup⟩ := List.nodup_cons.mp h.nodup
  cases l with
  | nil => exact ⟨List.nodup_nil, List.isChain_nil, fun y hy => nomatch hy⟩
  | cons b t =>
    obtain ⟨⟨t', hb⟩, hlast, hnp, hpn⟩ := h.head_links (List.cons_ne_nil b t)
    obtain ⟨rfl, rfl⟩ := List.cons.inj hb
    obtain ⟨hbt, -⟩ := List.nodup_cons.mp hnodup
    have hchain := (List.isChain_cons_cons.mp h.chain).2
    refine ⟨hnodup, hchain.imp_of_mem_tail_imp fun y z hy hz hyz => ?_, fun y hy z hz => ?_⟩
    · -- a node before the last one keeps its successor, one after the first its predecessor
      have hyl : y ≠ prev x := by
        rintro rfl
        exact hx (hnp ▸ hyz.1 ▸ List.mem_cons_of_mem _ hz)
      have hzb : z ≠ next x := fun he => hbt (he ▸ hz)
      exact ⟨(hu.next_other y hyl).trans hyz.1, (hu.prev_other z hzb).trans hyz.2⟩
    · obtain rfl := Option.some.inj (hlast.symm.trans hy)
      obtain rfl := Option.some.inj hz
      exact ⟨hu.next_prev, hu.prev_next⟩

/-- **Taking a node out** of a ring takes it out of the list. -/
theorem IsRing.remove (h : IsRing next prev (l ++ x :: m))
    (hu : Unlinks next prev next' prev' x) : IsRing next' prev' (l ++ m) := by
  have hrot : IsRing next prev (x :: (m ++ l)) := h.rotate
  exact (hrot.remove_head hu).rotate

/-! ## Putting a node in -/

/-- The stores that put `x` before the head `a`. -/
structure Links (next prev next' prev' : Nat → Nat) (a x : Nat) : Prop where
  next_new : next' x = a
  prev_new : prev' x = prev a
  next_last : next' (prev a) = x
  prev_head : prev' a = x
  next_other : ∀ y, y ≠ x → y ≠ prev a → next' y = next y
  prev_other : ∀ y, y ≠ x → y ≠ a → prev' y = prev y

/-- The last node of a ring is the head's predecessor. -/
theorem IsRing.getLast?_eq (h : IsRing next prev (a :: l)) :
    (a :: l).getLast? = some (prev a) ∧ next (prev a) = a := by
  have hlast := List.getLast?_eq_getLast_of_ne_nil (List.cons_ne_nil a l)
  obtain ⟨hn, hp⟩ := h.closed _ hlast a rfl
  rw [hlast, hp]
  exact ⟨rfl, hn⟩

/-- The list of a ring says what the pointers of its nodes are. -/
theorem IsRing.links_eq (h : IsRing next prev l) (h' : IsRing next' prev' l) (hx : x ∈ l) :
    next' x = next x ∧ prev' x = prev x := by
  obtain ⟨l₁, l₂, rfl⟩ := List.append_of_mem hx
  have hrot : IsRing next prev (x :: (l₂ ++ l₁)) := h.rotate
  have hrot' : IsRing next' prev' (x :: (l₂ ++ l₁)) := h'.rotate
  have hlast := hrot.getLast?_eq.1
  rw [hrot'.getLast?_eq.1, Option.some.injEq] at hlast
  refine ⟨?_, hlast⟩
  rw [hrot.next_eq (List.nil_append _).symm, hrot'.next_eq (List.nil_append _).symm]

/-- **Putting a node before the head** of a ring puts it at the end of the list. -/
theorem IsRing.insert (h : IsRing next prev (a :: l)) (hx : x ∉ a :: l)
    (hl : Links next prev next' prev' a x) : IsRing next' prev' (a :: l ++ [x]) := by
  obtain ⟨hlast, hna⟩ := h.getLast?_eq
  have hne : ∀ y ∈ a :: l, y ≠ x := fun y hy he => hx (he ▸ hy)
  refine ⟨?_, List.isChain_append.mpr ⟨?_, List.isChain_singleton x, ?_⟩, ?_⟩
  · exact List.nodup_append_comm.mpr (List.nodup_cons.mpr ⟨hx, h.nodup⟩)
  · refine h.chain.imp_of_mem_tail_imp fun y z hy hz hyz => ?_
    have hal : a ∉ l := (List.nodup_cons.mp h.nodup).1
    have hylast : y ≠ prev a := by
      rintro rfl
      exact hal (hna ▸ hyz.1 ▸ hz)
    have hza : z ≠ a := fun he => hal (he ▸ hz)
    exact ⟨(hl.next_other y (hne y hy) hylast).trans hyz.1,
      (hl.prev_other z (hne z (List.mem_cons_of_mem _ hz)) hza).trans hyz.2⟩
  · intro y hy z hz
    obtain rfl := Option.some.inj (hlast.symm.trans hy)
    obtain rfl := Option.some.inj hz
    exact ⟨hl.next_last, hl.prev_new⟩
  · intro y hy z hz
    rw [List.getLast?_append_of_ne_nil _ (List.cons_ne_nil x [])] at hy
    obtain rfl := Option.some.inj hy
    obtain rfl := Option.some.inj hz
    exact ⟨hl.next_new, hl.prev_head⟩

/-! ## Loops round a ring -/

section Walk
variable {σ ρ : Type} {body : σ → Nat → Except ρ σ}

/-- `do { body; e = e->next; } while (e != head);`, where the body may return
(`error`), and `none` if that takes more rounds than `fuel`. -/
def walk (body : σ → Nat → Except ρ σ) (next : Nat → Nat) (head : Nat) :
    Nat → Nat → σ → Option (Except ρ σ)
  | 0, _, _ => none
  | fuel + 1, e, acc =>
    match body acc e with
    | .error r => some (.error r)
    | .ok acc => if next e = head then some (.ok acc) else walk body next head fuel (next e) acc

theorem IsRing.walk_suffix (h : IsRing next prev (a :: l)) {pre post : List Nat}
    (he : a :: l = pre ++ x :: post) {fuel : Nat} (hf : post.length < fuel) (acc : σ) :
    walk body next a fuel x acc = some ((x :: post).foldlM body acc) := by
  induction post generalizing pre x fuel acc with
  | nil =>
    cases fuel with
    | zero => exact absurd hf (Nat.not_lt_zero _)
    | succ fuel =>
      have hx : next x = a := h.next_eq he
      rw [walk, List.foldlM_cons, hx]
      cases body acc x with
      | error r => rfl
      | ok acc => exact if_pos rfl
  | cons y post ih =>
    cases fuel with
    | zero => exact absurd hf (Nat.not_lt_zero _)
    | succ fuel =>
      have hnodup := h.nodup
      have hxy : next x = y := h.next_eq he
      have hya : y ≠ a := by
        rintro rfl
        cases pre with
        | nil =>
          obtain ⟨rfl, rfl⟩ := List.cons.inj he
          exact (List.nodup_cons.mp hnodup).1 List.mem_cons_self
        | cons z pre =>
          obtain ⟨rfl, rfl⟩ := List.cons.inj he
          refine (List.nodup_cons.mp hnodup).1 (List.mem_append_right _ ?_)
          exact List.mem_cons_of_mem _ List.mem_cons_self
      have hrest : a :: l = (pre ++ [x]) ++ y :: post := by
        rw [he, List.append_assoc]
        rfl
      rw [walk, List.foldlM_cons, hxy]
      cases body acc x with
      | error r => rfl
      | ok acc => exact (if_neg hya).trans (ih hrest (Nat.lt_of_succ_lt_succ hf) acc)

/-- **A loop round a ring** is a fold over its nodes. -/
theorem IsRing.walk_eq (h : IsRing next prev (a :: l)) {fuel : Nat} (hf : l.length < fuel)
    (acc : σ) : walk body next a fuel a acc = some ((a :: l).foldlM body acc) :=
  h.walk_suffix (List.nil_append _).symm hf acc

end Walk

end SynapseKernel.Ring
