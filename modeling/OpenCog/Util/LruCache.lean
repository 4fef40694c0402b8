import Mathlib

/-! `lru_cache` and `lru_cache_arg_result`: a map from arguments to results, and a list of its keys
that is meant to have the most recently used first. An iterator into the list stands for its key,
and lives as long as the key is in both. -/
namespace OpenCog.Util

variable {α β : Type} [DecidableEq α] [Hashable α]

structure LruCache (α β : Type) [DecidableEq α] [Hashable α] where
  n : Nat
  map : Std.ExtHashMap α β
  lru : List α

namespace LruCache

def create (n : Nat) : LruCache α β := ⟨n, ∅, []⟩

variable (c : LruCache α β)

def full : Bool := c.map.size == c.n

def empty : Bool := c.map.isEmpty

/-- `_lru.splice(it->first, _lru, _lru.begin())`, with the iterator at `x`: the first element is
moved to before `x`. -/
def splice (x : α) : List α → List α
  | [] => []
  | a :: lru =>
    if a = x then a :: lru
    else lru.takeWhile (· ≠ x) ++ a :: lru.dropWhile (· ≠ x)

def pushFront (x : α) (y : β) : LruCache α β :=
  { c with lru := x :: c.lru, map := c.map.insertIfNew x y }

/-- The last key of the list is erased from the map and from the list. -/
def popBack : LruCache α β :=
  match c.lru.getLast? with
  | none => c
  | some k => { c with map := c.map.erase k, lru := c.lru.dropLast }

/-- `lru_cache::operator()`; `none` where an assertion fails or the result is not in the map. -/
def call (f : α → β) (x : α) : Option (β × LruCache α β) :=
  if c.empty then
    if c.full then some (f x, c)
    else
      let c := c.pushFront x (f x)
      (c.map[x]?).map (·, c)
  else
    match c.map[x]? with
    | some y => some (y, { c with lru := splice x c.lru })
    | none =>
      let c := c.pushFront x (f x)
      let c := if c.n < c.map.size then c.popBack else c
      if c.map.size ≤ c.n ∧ c.lru.length = c.map.size then (c.map[x]?).map (·, c) else none

def run (f : α → β) : LruCache α β → List α → Option (List β × LruCache α β)
  | c, [] => some ([], c)
  | c, x :: xs => do
    let (y, c) ← c.call f x
    let (ys, c) ← run f c xs
    some (y :: ys, c)

/-- `lru_cache_arg_result::find` -/
def find (x : α) : Option β × LruCache α β :=
  match c.map[x]? with
  | some y => (some y, { c with lru := splice x c.lru })
  | none => (none, c)

/-- `lru_cache_arg_result::insert_new` -/
def insertNew (x : α) (y : β) : LruCache α β :=
  let c := c.pushFront x y
  if c.full then c.popBack else c

/-! ## The keys -/

/-- The map and the list have the same keys. -/
structure SameKeys : Prop where
  nodup : c.lru.Nodup
  keys : ∀ x, x ∈ c.map ↔ x ∈ c.lru
  size : c.map.size = c.lru.length

variable {c} {f : α → β} {x k : α} {y : β} {n : Nat}

omit [Hashable α] in
theorem splice_perm (x : α) (l : List α) : (splice x l).Perm l := by
  cases l with
  | nil => exact .refl _
  | cons a l =>
    rw [splice]
    split
    · exact .refl _
    · refine List.perm_middle.trans ?_
      rw [List.takeWhile_append_dropWhile]

theorem SameKeys.create (n : Nat) : SameKeys (LruCache.create n : LruCache α β) :=
  ⟨List.nodup_nil, by simp [LruCache.create], by simp [LruCache.create]⟩

theorem SameKeys.splice (h : SameKeys c) (x : α) :
    SameKeys { c with lru := LruCache.splice x c.lru } :=
  ⟨(splice_perm x c.lru).nodup_iff.mpr h.nodup,
    fun z => (h.keys z).trans (splice_perm x c.lru).mem_iff.symm,
    h.size.trans (splice_perm x c.lru).length_eq.symm⟩

theorem SameKeys.pushFront (h : SameKeys c) (hx : x ∉ c.map) (y : β) :
    SameKeys (c.pushFront x y) := by
  refine ⟨List.nodup_cons.mpr ⟨fun hm => hx ((h.keys x).mpr hm), h.nodup⟩, fun z => ?_, ?_⟩
  · rw [LruCache.pushFront, Std.ExtHashMap.mem_insertIfNew, List.mem_cons, h.keys, beq_iff_eq]
    exact or_congr_left eq_comm
  · simp only [LruCache.pushFront, Std.ExtHashMap.size_insertIfNew, if_neg hx, h.size,
      List.length_cons]

theorem lru_popBack (c : LruCache α β) : c.popBack.lru = c.lru.dropLast := by
  rw [popBack]
  split
  · next h => rw [List.getLast?_eq_none_iff.mp h, List.dropLast_nil]
  · rfl

theorem n_popBack (c : LruCache α β) : c.popBack.n = c.n := by
  rw [popBack]
  split <;> rfl

/-- The key that goes is the last of the list. -/
theorem mem_map_popBack (hk : c.lru.getLast? = some k) (z : α) :
    z ∈ c.popBack.map ↔ z ∈ c.map ∧ z ≠ k := by
  rw [popBack, hk]
  simp only [Std.ExtHashMap.mem_erase, beq_eq_false_iff_ne, ne_comm, and_comm]

theorem getElem?_popBack (hk : c.lru.getLast? = some k) {z : α} (hz : z ≠ k) :
    c.popBack.map[z]? = c.map[z]? := by
  rw [popBack, hk]
  simp only [Std.ExtHashMap.getElem?_erase, beq_iff_eq, if_neg hz.symm]

omit [Hashable α] [DecidableEq α] in
theorem mem_dropLast_iff {l : List α} (hnd : l.Nodup) (hk : l.getLast? = some k) (z : α) :
    z ∈ l.dropLast ↔ z ∈ l ∧ z ≠ k := by
  obtain ⟨l', rfl⟩ := List.getLast?_eq_some_iff.mp hk
  rw [List.dropLast_concat]
  have hkl : k ∉ l' := fun hm =>
    (List.nodup_append.mp hnd).2.2 k hm k (List.mem_singleton_self k) rfl
  constructor
  · intro hz
    exact ⟨List.mem_append_left _ hz, fun e => hkl (e ▸ hz)⟩
  · rintro ⟨hz, hne⟩
    exact (List.mem_append.mp hz).resolve_right fun hz => hne (List.mem_singleton.mp hz)

theorem SameKeys.popBack (h : SameKeys c) : SameKeys c.popBack := by
  cases hk : c.lru.getLast? with
  | none => rw [LruCache.popBack, hk]; exact h
  | some k =>
    refine ⟨?_, fun z => ?_, ?_⟩
    · rw [lru_popBack]
      exact h.nodup.sublist (List.dropLast_sublist _)
    · rw [mem_map_popBack hk, lru_popBack, mem_dropLast_iff h.nodup hk, h.keys]
    · have hmem : k ∈ c.map := (h.keys k).mpr (List.mem_of_getLast? hk)
      rw [lru_popBack, List.length_dropLast, ← h.size, LruCache.popBack, hk]
      simp only [Std.ExtHashMap.size_erase, if_pos hmem]

/-- The order of the keys after a call. -/
def orderAfter (n : Nat) (lru : List α) (x : α) : List α :=
  if x ∈ lru then splice x lru
  else if lru.length < n then x :: lru
  else x :: lru.dropLast

/-- What holds between calls: the entries of the map are those of the function, at most `n`. -/
structure Serving (f : α → β) (n : Nat) (c : LruCache α β) : Prop extends SameKeys c where
  values : ∀ x ∈ c.lru, c.map[x]? = some (f x)
  capacity : c.n = n
  bound : c.lru.length ≤ n

theorem Serving.create (f : α → β) (n : Nat) : Serving f n (LruCache.create n) :=
  ⟨.create n, by simp [LruCache.create], rfl, Nat.zero_le _⟩

theorem getElem?_pushFront (hx : x ∉ c.map) (y : β) (z : α) :
    (c.pushFront x y).map[z]? = if z = x then some y else c.map[z]? := by
  rw [pushFront, Std.ExtHashMap.getElem?_insertIfNew]
  by_cases hz : z = x
  · subst hz
    rw [if_pos ⟨beq_self_eq_true z, hx⟩, if_pos rfl]
  · rw [if_neg fun h => hz (beq_iff_eq.mp h.1).symm, if_neg hz]

theorem Serving.values_pushFront (h : Serving f n c) (hx : x ∉ c.map) :
    ∀ z ∈ x :: c.lru, (c.pushFront x (f x)).map[z]? = some (f z) := by
  intro z hz
  rw [getElem?_pushFront hx]
  split
  · next e => rw [e]
  · next e => exact h.values z ((List.mem_cons.mp hz).resolve_left e)

/-- What a new key leaves behind, with or without room for it. -/
theorem Serving.miss (h : Serving f n c) (hn : 1 ≤ n) (hx : x ∉ c.map) {c' : LruCache α β}
    (hc' : c' = if c.n < (c.pushFront x (f x)).map.size then (c.pushFront x (f x)).popBack
      else c.pushFront x (f x)) :
    Serving f n c' ∧ c'.lru = orderAfter n c.lru x ∧ c'.map[x]? = some (f x) := by
  have hnot : x ∉ c.lru := fun hm => hx ((h.keys x).mpr hm)
  have hpush := h.toSameKeys.pushFront hx (f x)
  have hvalues := h.values_pushFront hx
  have hsize : (c.pushFront x (f x)).map.size = c.lru.length + 1 := hpush.size
  have hbound := h.bound
  rw [hsize, h.capacity] at hc'
  split at hc'
  · next hfull =>
    have hne : c.lru ≠ [] := by
      rintro e
      rw [e] at hfull
      simp only [List.length_nil] at hfull
      omega
    obtain ⟨l, k, hl⟩ := (List.eq_nil_or_concat c.lru).resolve_left hne
    have hlast : (c.pushFront x (f x)).lru.getLast? = some k := by
      rw [pushFront, hl, List.concat_eq_append, ← List.cons_append, List.getLast?_concat]
    have hk : x ≠ k := by
      rintro rfl
      exact hnot (by rw [hl]; simp)
    have hdrop : (x :: c.lru).dropLast = x :: c.lru.dropLast := List.dropLast_cons_of_ne_nil hne
    have hlru : c'.lru = x :: c.lru.dropLast := by
      rw [hc', lru_popBack]
      exact hdrop
    refine ⟨⟨hc' ▸ hpush.popBack, fun z hz => ?_, ?_, ?_⟩, ?_, ?_⟩
    · rw [hlru, ← hdrop] at hz
      have hz : z ∈ x :: c.lru ∧ z ≠ k := (mem_dropLast_iff hpush.nodup hlast z).mp hz
      rw [hc', getElem?_popBack hlast hz.2]
      exact hvalues z hz.1
    · rw [hc', n_popBack]
      exact h.capacity
    · rw [hlru, List.length_cons, List.length_dropLast]
      omega
    · rw [hlru, orderAfter, if_neg hnot, if_neg (by omega)]
    · rw [hc', getElem?_popBack hlast hk]
      exact hvalues x List.mem_cons_self
  · next hroom =>
    subst hc'
    refine ⟨⟨hpush, hvalues, h.capacity, ?_⟩, ?_, hvalues x List.mem_cons_self⟩
    · change c.lru.length + 1 ≤ n
      omega
    · rw [orderAfter, if_neg hnot, if_pos (by omega)]
      rfl

/-- A call returns what the function returns and keeps the cache. -/
theorem Serving.call (h : Serving f n c) (hn : 1 ≤ n) (x : α) :
    ∃ c', c.call f x = some (f x, c') ∧ Serving f n c' ∧ c'.lru = orderAfter n c.lru x := by
  have hsize := h.size
  have hcap := h.capacity
  have hbound := h.bound
  rw [LruCache.call]
  split
  · next hempty =>
    rw [empty, Std.ExtHashMap.isEmpty_iff] at hempty
    have hx : x ∉ c.map := by simp [hempty]
    rw [hempty, Std.ExtHashMap.size_empty] at hsize
    have hfull : c.full = false := by
      rw [full, hempty, Std.ExtHashMap.size_empty, hcap]
      simp only [beq_eq_false_iff_ne]
      omega
    obtain ⟨hserve, hlru, hget⟩ := @Serving.miss _ _ _ _ _ _ _ _ h hn hx (c.pushFront x (f x)) (by
      rw [if_neg]
      rw [(h.toSameKeys.pushFront hx (f x)).size, hcap]
      simp only [pushFront, List.length_cons]
      omega)
    refine ⟨c.pushFront x (f x), ?_, hserve, hlru⟩
    rw [if_neg (by simp [hfull])]
    simp only [hget, Option.map_some]
  · split
    · next y hy =>
      have hmem : x ∈ c.lru := by
        rw [← h.keys, Std.ExtHashMap.mem_iff_isSome_getElem?, hy]
        rfl
      have hyx : y = f x := Option.some.inj (hy.symm.trans (h.values x hmem))
      refine ⟨_, by rw [hyx], ⟨h.toSameKeys.splice x, fun z hz => ?_, hcap, ?_⟩, ?_⟩
      · exact h.values z ((splice_perm x c.lru).mem_iff.mp hz)
      · exact (splice_perm x c.lru).length_eq.trans_le h.bound
      · rw [orderAfter, if_pos hmem]
    · next hx =>
      have hx : x ∉ c.map := by
        rw [Std.ExtHashMap.mem_iff_isSome_getElem?, hx]
        simp
      obtain ⟨hserve, hlru, hget⟩ := h.miss hn hx rfl
      refine ⟨_, ?_, hserve, hlru⟩
      simp only
      have hn' : (c.pushFront x (f x)).n = c.n := rfl
      rw [hn', hget, if_pos, Option.map_some]
      rw [hserve.capacity, hserve.size]
      exact ⟨hserve.bound, rfl⟩

theorem Serving.run (h : Serving f n c) (hn : 1 ≤ n) (xs : List α) :
    ∃ c', c.run f xs = some (xs.map f, c') ∧ Serving f n c' ∧
      c'.lru = xs.foldl (orderAfter n) c.lru := by
  induction xs generalizing c with
  | nil => exact ⟨c, rfl, h, rfl⟩
  | cons x xs ih =>
    obtain ⟨c₁, hc₁, h₁, hlru₁⟩ := h.call hn x
    obtain ⟨c', hc', h', hlru'⟩ := ih h₁
    refine ⟨c', ?_, h', ?_⟩
    · rw [LruCache.run, hc₁]
      simp only [Option.bind_eq_bind, Option.bind_some, hc', List.map_cons]
    · rw [hlru', hlru₁, List.foldl_cons]

/-! ## Recency -/

/-- The results are those of the function, and map and list have the same keys, at most `n`. -/
def Serves (f : α → β) (n : Nat) (calls : List α) : Prop :=
  ∃ c, (create n).run f calls = some (calls.map f, c) ∧ SameKeys c ∧ c.map.size ≤ n

/-- No key of the cache was called longer ago. -/
def LeastRecent (calls : List α) (c : LruCache α β) (k : α) : Prop :=
  k ∈ c.map ∧ ∀ k' ∈ c.map, calls.reverse.idxOf k' ≤ calls.reverse.idxOf k

/-- Where `x` is called after `calls`, is new and finds the cache full, the least recently used key
and no other makes room for it. -/
def EvictsLeastRecent (f : α → β) (n : Nat) (calls : List α) (x : α) : Prop :=
  ∀ ys c y c', (create n).run f calls = some (ys, c) → c.call f x = some (y, c') →
    x ∉ c.map → c.map.size = n →
    ∃ k, LeastRecent calls c k ∧ ∀ z, z ∈ c'.map ↔ z = x ∨ z ∈ c.map ∧ z ≠ k

/-- Each argument is that of the call before, or is not in the cache. -/
def MostRecentOrNew (f : α → β) (n : Nat) (calls : List α) : Prop :=
  ∀ before x after, calls = before ++ x :: after →
    ∀ ys c, (create n).run f before = some (ys, c) → x ∈ c.map → before.getLast? = some x

def InRecencyOrder (calls l : List α) : Prop :=
  l.head? = calls.getLast? ∧
    l.Pairwise fun a b => calls.reverse.idxOf a < calls.reverse.idxOf b

omit [Hashable α] in
theorem idxOf_lt_cons {l : List α} {x a b : α} (hb : b ≠ x) (h : l.idxOf a < l.idxOf b) :
    (x :: l).idxOf a < (x :: l).idxOf b := by
  rw [List.idxOf_cons_ne l hb.symm]
  by_cases ha : a = x
  · rw [ha, List.idxOf_cons_self]
    exact Nat.succ_pos _
  · rw [List.idxOf_cons_ne l (Ne.symm ha)]
    exact Nat.succ_lt_succ h

omit [Hashable α] in
/-- A new key in front of keys that were called before. -/
theorem InRecencyOrder.cons {calls l : List α} (hl : l.Pairwise fun a b =>
      calls.reverse.idxOf a < calls.reverse.idxOf b) (hx : x ∉ l) :
    InRecencyOrder (calls ++ [x]) (x :: l) := by
  refine ⟨by simp, ?_⟩
  rw [List.reverse_append, List.reverse_singleton, List.singleton_append, List.pairwise_cons]
  constructor
  · intro b hb
    rw [List.idxOf_cons_self, List.idxOf_cons_ne _ (fun e : x = b => hx (e ▸ hb))]
    exact Nat.succ_pos _
  · exact hl.imp_of_mem fun _ hb h => idxOf_lt_cons (fun e => hx (e ▸ hb)) h

omit [Hashable α] in
/-- The list stays in order when the key found is the first. -/
theorem InRecencyOrder.orderAfter {calls l : List α} (h : InRecencyOrder calls l)
    (hx : x ∈ l → calls.getLast? = some x) (n : Nat) :
    InRecencyOrder (calls ++ [x]) (LruCache.orderAfter n l x) := by
  obtain ⟨hhead, hpair⟩ := h
  rw [LruCache.orderAfter]
  split
  · next hmem =>
    rw [hx hmem] at hhead
    obtain ⟨l', rfl⟩ := List.head?_eq_some_iff.mp hhead
    rw [LruCache.splice, if_pos rfl]
    obtain ⟨hlt, hpair⟩ := List.pairwise_cons.mp hpair
    exact .cons hpair fun hm => Nat.lt_irrefl _ (hlt x hm)
  · next hnot =>
    split
    · exact .cons hpair hnot
    · exact .cons (hpair.sublist (List.dropLast_sublist l))
        fun hm => hnot (List.dropLast_sublist l |>.mem hm)

theorem serves (f : α → β) (hn : 1 ≤ n) (calls : List α) : Serves f n calls := by
  obtain ⟨c, hc, h, -⟩ := (Serving.create f n).run hn calls
  exact ⟨c, hc, h.toSameKeys, h.size.trans_le h.bound⟩

theorem MostRecentOrNew.inRecencyOrder {calls : List α} (hn : 1 ≤ n)
    (h : MostRecentOrNew f n calls) : InRecencyOrder calls (calls.foldl (LruCache.orderAfter n) []) := by
  induction calls using List.reverseRecOn with
  | nil => exact ⟨rfl, List.Pairwise.nil⟩
  | append_singleton calls x ih =>
    have hcalls : MostRecentOrNew f n calls := by
      intro before z after e
      exact h before z (after ++ [x]) (by rw [e, List.append_assoc, List.cons_append])
    rw [List.foldl_append, List.foldl_cons, List.foldl_nil]
    apply (ih hcalls).orderAfter
    intro hx
    obtain ⟨c, hc, hserve, hlru⟩ := (Serving.create f n).run hn calls
    exact h calls x [] rfl _ c hc ((hserve.keys x).mpr (hlru ▸ hx))

/-- From a list in order, the last key is the one to go. -/
theorem evictsLeastRecent {calls : List α} (hn : 1 ≤ n)
    (h : InRecencyOrder calls (calls.foldl (LruCache.orderAfter n) [])) (x : α) :
    EvictsLeastRecent f n calls x := by
  intro ys c y c' hc hc' hx hfull
  obtain ⟨c₁, hc₁, hserve, hlru⟩ := (Serving.create f n).run hn calls
  obtain ⟨-, rfl⟩ := Prod.mk.inj (Option.some.inj (hc.symm.trans hc₁))
  obtain ⟨c₂, hc₂, hserve', hlru'⟩ := hserve.call hn x
  obtain ⟨-, rfl⟩ := Prod.mk.inj (Option.some.inj (hc'.symm.trans hc₂))
  have hlen : c.lru.length = n := hserve.size.symm.trans hfull
  have hnot : x ∉ c.lru := fun hm => hx ((hserve.keys x).mpr hm)
  rw [LruCache.orderAfter, if_neg hnot, if_neg (by omega)] at hlru'
  have hne : c.lru ≠ [] := by
    rintro e
    rw [e] at hlen
    simp only [List.length_nil] at hlen
    omega
  obtain ⟨l, k, hl⟩ := (List.eq_nil_or_concat c.lru).resolve_left hne
  have hlast : c.lru.getLast? = some k := by rw [hl, List.concat_eq_append, List.getLast?_concat]
  have hpair := h.2
  have hlru : c.lru = calls.foldl (LruCache.orderAfter n) [] := hlru
  rw [← hlru] at hpair
  refine ⟨k, ⟨(hserve.keys k).mpr (List.mem_of_getLast? hlast), fun k' hk' => ?_⟩, fun z => ?_⟩
  · rw [hserve.keys, hl, List.concat_eq_append, List.mem_append, List.mem_singleton] at hk'
    rw [hl, List.concat_eq_append] at hpair
    rcases hk' with hk' | rfl
    · exact Nat.le_of_lt ((List.pairwise_append.mp hpair).2.2 k' hk' k List.mem_cons_self)
    · exact Nat.le_refl _
  · rw [hserve'.keys, hlru', List.mem_cons, mem_dropLast_iff hserve.nodup hlast, hserve.keys]

/-! ## `lru_cache_arg_result` -/

/-- The caches that calls lead to, where a new key is inserted only when it is not there. -/
inductive Reachable (n : Nat) : LruCache α β → Prop
  | create : Reachable n (create n)
  | find (c : LruCache α β) (x : α) : Reachable n c → Reachable n (c.find x).2
  | insertNew (c : LruCache α β) (x : α) (y : β) :
      Reachable n c → x ∉ c.map → Reachable n (c.insertNew x y)
  | clear (c : LruCache α β) : Reachable n c → Reachable n { c with map := ∅, lru := [] }

/-- The cache has room for one key more. -/
structure Roomy (n : Nat) (c : LruCache α β) : Prop extends SameKeys c where
  capacity : c.n = n
  bound : c.lru.length < n

/-- Of the keys one is gone when they have become `n`. -/
theorem Roomy.insertNew (h : Roomy n c) (hx : x ∉ c.map) (y : β) :
    Roomy n (c.insertNew x y) ∧ (x ∈ (c.insertNew x y).map ↔ n ≠ 1) := by
  have hpush := h.toSameKeys.pushFront hx y
  have hcap : (c.pushFront x y).n = n := h.capacity
  have hlen : (c.pushFront x y).lru.length = c.lru.length + 1 := rfl
  have hbound := h.bound
  have hmem : x ∈ (c.pushFront x y).map := (hpush.keys x).mpr List.mem_cons_self
  have hfull : (c.pushFront x y).full = true ↔ c.lru.length + 1 = n := by
    rw [full, beq_iff_eq, hpush.size, hcap, hlen]
  rw [LruCache.insertNew]
  simp only [hfull]
  split
  · next hn =>
    refine ⟨⟨hpush.popBack, by rw [n_popBack, hcap], ?_⟩, ?_⟩
    · rw [lru_popBack, List.length_dropLast, hlen]
      omega
    · obtain ⟨l, k, hl⟩ := (List.eq_nil_or_concat (c.pushFront x y).lru).resolve_left
        (List.cons_ne_nil _ _)
      have hlast : (c.pushFront x y).lru.getLast? = some k := by
        rw [hl, List.concat_eq_append, List.getLast?_concat]
      rw [mem_map_popBack hlast, and_iff_right hmem]
      have hxl : (x :: c.lru).getLast? = some k := hlast
      cases hc : c.lru with
      | nil =>
        rw [hc] at hxl hn
        simp only [List.getLast?_singleton, Option.some.injEq, List.length_nil] at hxl hn
        simp [hxl, ← hn]
      | cons a l' =>
        rw [hc, List.getLast?_cons_cons] at hxl
        have hne : x ≠ k := by
          rintro rfl
          exact hx ((h.keys x).mpr (hc ▸ List.mem_of_getLast? hxl))
        rw [hc, List.length_cons] at hn
        exact iff_of_true hne (by omega)
  · next hn =>
    refine ⟨⟨hpush, hcap, by omega⟩, iff_of_true hmem ?_⟩
    rintro rfl
    omega

theorem Reachable.roomy (hn : 1 ≤ n) (h : Reachable n c) : Roomy n c := by
  induction h with
  | create => exact ⟨.create n, rfl, hn⟩
  | find c x _ ih =>
    rw [LruCache.find]
    split
    · exact ⟨ih.toSameKeys.splice x, ih.capacity,
        (splice_perm x c.lru).length_eq.trans_lt ih.bound⟩
    · exact ih
  | insertNew c x y _ hx ih => exact (ih.insertNew hx y).1
  | clear c _ ih => exact ⟨⟨List.nodup_nil, by simp, by simp⟩, ih.capacity, hn⟩

/-- Values, keys and size are right for all calls. The least recently used key makes room as long
as a key is found again only right after it was used; and a new key stays in the other cache,
within its size, unless that is one. -/
theorem caches_correct (hn : 1 ≤ n) (f : α → β) :
    (∀ calls, Serves f n calls) ∧
    (∀ calls, MostRecentOrNew f n calls →
      ∀ before x after, calls = before ++ x :: after → EvictsLeastRecent f n before x) ∧
    ∀ c : LruCache α β, Reachable n c → ∀ x ∉ c.map, ∀ y,
      (x ∈ (c.insertNew x y).map ∧ (c.insertNew x y).map.size ≤ n) ↔ n ≠ 1 := by
  refine ⟨serves f hn, ?_, ?_⟩
  · intro calls h before x after e
    apply evictsLeastRecent hn
    apply MostRecentOrNew.inRecencyOrder (f := f) hn
    intro before' z after' e'
    exact h before' z (after' ++ x :: after) (by rw [e, e', List.append_assoc, List.cons_append])
  · intro c hc x hx y
    obtain ⟨hroomy, hmem⟩ := (hc.roomy hn).insertNew hx y
    rw [hmem]
    exact and_iff_left (hroomy.size.trans_le (Nat.le_of_lt hroomy.bound))

theorem caches_correct_two :
    (∀ calls, Serves (· + 1) 2 calls) ∧
    (∀ calls, MostRecentOrNew (· + 1) 2 calls →
      ∀ before x after, calls = before ++ x :: after → EvictsLeastRecent (· + 1) 2 before x) ∧
    ∀ c : LruCache Nat Nat, Reachable 2 c → ∀ x ∉ c.map, ∀ y,
      (x ∈ (c.insertNew x y).map ∧ (c.insertNew x y).map.size ≤ 2) ↔ 2 ≠ 1 :=
  caches_correct (by decide) (· + 1)

/-- In a cache of two keys the first is used again, and still makes room for a third. -/
theorem not_evictsLeastRecent : ¬ EvictsLeastRecent (fun x : Nat => x) 2 [1, 2, 1] 3 := by
  intro h
  obtain ⟨c, hc, hserve, hlru⟩ := (Serving.create (fun x : Nat => x) 2).run (by decide) [1, 2, 1]
  obtain ⟨c', hc', hserve', hlru'⟩ := hserve.call (by decide) 3
  have hlru : c.lru = [2, 1] := hlru.trans (by decide)
  rw [hlru] at hlru'
  have hlru' : c'.lru = [3, 2] := hlru'.trans (by decide)
  obtain ⟨k, ⟨hk, hold⟩, hkeys⟩ := h _ c _ c' hc hc' (by rw [hserve.keys, hlru]; decide)
    (by rw [hserve.size, hlru]; rfl)
  have hk1 : k = 1 := by
    have h1 : ¬ 1 ∈ c'.map := by rw [hserve'.keys, hlru']; decide
    have h2 : 1 ∈ c.map := by rw [hserve.keys, hlru]; decide
    rw [hkeys 1] at h1
    by_contra hne
    exact h1 (.inr ⟨h2, fun e => hne e.symm⟩)
  subst hk1
  exact absurd (hold 2 (by rw [hserve.keys, hlru]; decide)) (by decide)

end LruCache

end OpenCog.Util
