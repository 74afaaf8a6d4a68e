import Mathlib.Tactic.Common
import Mathlib.Data.List.Basic
import Mathlib.Data.List.Count
import Mathlib.Data.List.Dedup
import Mathlib.Data.List.Pairwise
import Mathlib.Data.List.Perm.Subperm
import Mathlib.Algebra.Ring.Nat

/-!
Hash tables with separate chaining, and the association list such a table
stands for.

The key type comes with a hash and an equality of its own; the equality is
a boolean relation and need not be the equality of the type. A table is a
list of buckets. It may be rehashed to any number of buckets before an
insertion, as a growth policy that is a parameter says.

The use made of tables here is counting: go through a list of keys, add a
key that is not yet there with count one, and add one to the count of a
key that is. `tally_perm` says that as long as equal keys have equal
hashes the table built this way holds exactly what a linearly searched
association list would, whatever the hash, the number of buckets and the
growth policy.
-/

namespace UnorderedMap

variable {κ β : Type}

/-- What a table is told about its keys. -/
structure KeyOps (κ : Type) where
  hash : κ → ℕ
  eq : κ → κ → Bool

/-- The equality is an equivalence, and the hash cannot tell equal keys
apart. -/
structure KeyOps.Lawful (ops : KeyOps κ) : Prop where
  refl : ∀ a, ops.eq a a = true
  symm : ∀ a b, ops.eq a b = true → ops.eq b a = true
  trans : ∀ a b c, ops.eq a b = true → ops.eq b c = true → ops.eq a c = true
  hash : ∀ a b, ops.eq a b = true → ops.hash a = ops.hash b

/-! ### Association lists -/

/-- No two keys of the list are equal. -/
def Distinct (eq : κ → κ → Bool) (l : List (κ × β)) : Prop :=
  l.Pairwise fun a b => eq a.1 b.1 = false

/-- Change the value of the first entry whose key is `k`. -/
def bump (eq : κ → κ → Bool) (k : κ) (f : β → β) : List (κ × β) → List (κ × β)
  | [] => []
  | e :: es => if eq k e.1 then (e.1, f e.2) :: es else e :: bump eq k f es

/-- Count one more occurrence of `k`. -/
def tallyStep (eq : κ → κ → Bool) (l : List (κ × ℕ)) (k : κ) : List (κ × ℕ) :=
  match l.find? fun e => eq k e.1 with
  | none => (k, 1) :: l
  | some _ => bump eq k (· + 1) l

/-- Count the occurrences of each key in a linearly searched list. -/
def assocTally (eq : κ → κ → Bool) (xs : List κ) : List (κ × ℕ) :=
  xs.foldl (tallyStep eq) []

theorem bump_keys (eq : κ → κ → Bool) (k : κ) (f : β → β) (l : List (κ × β)) :
    (bump eq k f l).map Prod.fst = l.map Prod.fst := by
  induction l with
  | nil => rfl
  | cons e es ih =>
      simp only [bump]
      split
      · rfl
      · simp [ih]

theorem distinct_iff_keys (eq : κ → κ → Bool) (l : List (κ × β)) :
    Distinct eq l ↔ (l.map Prod.fst).Pairwise fun a b => eq a b = false := by
  rw [Distinct, List.pairwise_map]

theorem Distinct.bump {eq : κ → κ → Bool} {l : List (κ × β)} (hl : Distinct eq l) (k : κ)
    (f : β → β) : Distinct eq (bump eq k f l) := by
  rw [distinct_iff_keys, bump_keys]
  exact (distinct_iff_keys eq l).mp hl

theorem distinct_tallyStep {eq : κ → κ → Bool} {l : List (κ × ℕ)} (hl : Distinct eq l)
    (k : κ) : Distinct eq (tallyStep eq l k) := by
  unfold tallyStep
  cases hf : l.find? fun e => eq k e.1 with
  | none =>
      refine List.pairwise_cons.mpr ⟨fun e he => ?_, hl⟩
      simpa using List.find?_eq_none.mp hf e he
  | some e => exact hl.bump k _

section Lawful

variable {ops : KeyOps κ}

theorem KeyOps.Lawful.symm_false (hops : ops.Lawful) {a b : κ} (h : ops.eq a b = false) :
    ops.eq b a = false := by
  by_contra hba
  rw [Bool.not_eq_false] at hba
  rw [hops.symm b a hba] at h
  cases h

/-- Among distinct keys only one can equal `k`, so changing the first is
changing all. -/
theorem bump_eq_map (hops : ops.Lawful) {l : List (κ × β)} (hl : Distinct ops.eq l) (k : κ)
    (f : β → β) :
    bump ops.eq k f l = l.map fun e => if ops.eq k e.1 then (e.1, f e.2) else e := by
  induction l with
  | nil => rfl
  | cons e es ih =>
      obtain ⟨hne, hes⟩ := List.pairwise_cons.mp hl
      by_cases hk : ops.eq k e.1 = true
      · have hrest : ∀ x ∈ es, (if ops.eq k x.1 then (x.1, f x.2) else x) = x := by
          intro x hx
          have hkx : ops.eq k x.1 = false := by
            by_contra hkx
            rw [Bool.not_eq_false] at hkx
            have := hops.trans _ _ _ (hops.symm _ _ hk) hkx
            rw [hne x hx] at this
            cases this
          simp [hkx]
        simp only [bump, hk, if_true, List.map_cons, List.cons.injEq, true_and]
        rw [List.map_congr_left hrest, List.map_id']
      · simp [bump, hk, ih hes]

theorem Distinct.perm (hops : ops.Lawful) {l l' : List (κ × β)} (hl : Distinct ops.eq l)
    (h : l.Perm l') : Distinct ops.eq l' :=
  h.pairwise hl fun h => hops.symm_false h

theorem find?_none_of_perm {p : κ × β → Bool} {l l' : List (κ × β)} (h : l.Perm l')
    (hl : l.find? p = none) : l'.find? p = none := by
  rw [List.find?_eq_none] at hl ⊢
  exact fun x hx => hl x (h.mem_iff.mpr hx)

/-- The order of the entries does not matter to what a count does. -/
theorem tallyStep_perm (hops : ops.Lawful) {l l' : List (κ × ℕ)} (h : l.Perm l')
    (hl : Distinct ops.eq l) (k : κ) :
    (tallyStep ops.eq l k).Perm (tallyStep ops.eq l' k) := by
  unfold tallyStep
  cases hf : l.find? fun e => ops.eq k e.1 with
  | none =>
      rw [find?_none_of_perm h hf]
      exact h.cons _
  | some e =>
      cases hf' : l'.find? fun e => ops.eq k e.1 with
      | none => rw [find?_none_of_perm h.symm hf'] at hf; cases hf
      | some e' =>
          simp only
          rw [bump_eq_map hops hl, bump_eq_map hops (hl.perm hops h)]
          exact h.map _

/-! ### What an association list counts -/

/-- The list holds, for each key seen, one entry with the number of keys
seen that equal it. -/
structure Counts (ops : KeyOps κ) (xs : List κ) (l : List (κ × ℕ)) : Prop where
  distinct : Distinct ops.eq l
  seen : ∀ x ∈ xs, ∃ e ∈ l, ops.eq x e.1 = true
  count : ∀ e ∈ l, e.1 ∈ xs ∧ e.2 = xs.countP (ops.eq e.1)

theorem Counts.step (hops : ops.Lawful) {xs : List κ} {l : List (κ × ℕ)}
    (h : Counts ops xs l) (k : κ) : Counts ops (xs ++ [k]) (tallyStep ops.eq l k) := by
  refine ⟨distinct_tallyStep h.distinct k, ?_, ?_⟩
  · intro x hx
    unfold tallyStep
    cases hf : l.find? fun e => ops.eq k e.1 with
    | none =>
        rcases List.mem_append.mp hx with hx | hx
        · obtain ⟨e, he, hxe⟩ := h.seen x hx
          exact ⟨e, List.mem_cons_of_mem _ he, hxe⟩
        · rw [List.mem_singleton] at hx
          exact ⟨(k, 1), List.mem_cons_self, hx ▸ hops.refl k⟩
    | some e =>
        -- A bump leaves the keys as they are, so what was seen is still seen.
        have hmem : ∀ y, (∃ e ∈ l, ops.eq y e.1 = true) →
            ∃ e ∈ bump ops.eq k (· + 1) l, ops.eq y e.1 = true := by
          rintro y ⟨e, he, hy⟩
          have : e.1 ∈ (bump ops.eq k (· + 1) l).map Prod.fst := by
            rw [bump_keys]; exact List.mem_map_of_mem he
          obtain ⟨e', he', heq⟩ := List.mem_map.mp this
          exact ⟨e', he', by rw [heq]; exact hy⟩
        rcases List.mem_append.mp hx with hx | hx
        · exact hmem x (h.seen x hx)
        · rw [List.mem_singleton] at hx
          subst hx
          exact hmem x ⟨e, List.mem_of_find?_eq_some hf, by
            simpa using List.find?_some hf⟩
  · intro e he
    unfold tallyStep at he
    cases hf : l.find? fun e => ops.eq k e.1 with
    | none =>
        rw [hf] at he
        have hnone := List.find?_eq_none.mp hf
        rcases List.mem_cons.mp he with rfl | he
        · -- A new entry counts one: by transitivity no key before was equal to it.
          have hzero : xs.countP (ops.eq k) = 0 := by
            rw [List.countP_eq_zero]
            intro x hx hkx
            obtain ⟨e, he, hxe⟩ := h.seen x hx
            exact hnone e he (hops.trans _ _ _ hkx hxe)
          refine ⟨by simp, ?_⟩
          simp [List.countP_append, hzero, hops.refl]
        · have hek : ops.eq e.1 k = false := hops.symm_false (by simpa using hnone e he)
          refine ⟨List.mem_append_left _ (h.count e he).1, ?_⟩
          simp [List.countP_append, hek, (h.count e he).2]
    | some e₀ =>
        rw [hf] at he
        simp only at he
        rw [bump_eq_map hops h.distinct] at he
        obtain ⟨e', he', rfl⟩ := List.mem_map.mp he
        obtain ⟨hmem, hcount⟩ := h.count e' he'
        -- Only the entry with an equal key counts one more.
        by_cases hk : ops.eq k e'.1 = true
        · simp only [hk, if_true]
          refine ⟨List.mem_append_left _ hmem, ?_⟩
          simp [List.countP_append, hops.symm _ _ hk, hcount]
        · rw [Bool.not_eq_true] at hk
          simp only [hk]
          refine ⟨List.mem_append_left _ hmem, ?_⟩
          simp [List.countP_append, hops.symm_false hk, hcount]

theorem counts_foldl (hops : ops.Lawful) (ys : List κ) {xs : List κ} {l : List (κ × ℕ)}
    (h : Counts ops xs l) : Counts ops (xs ++ ys) (ys.foldl (tallyStep ops.eq) l) := by
  induction ys generalizing xs l with
  | nil => simpa using h
  | cons k ys ih => simpa using ih (h.step hops k)

theorem Counts.keys_nodup (hops : ops.Lawful) {xs : List κ} {l : List (κ × ℕ)}
    (h : Counts ops xs l) : (l.map Prod.fst).Nodup := by
  refine ((distinct_iff_keys _ _).mp h.distinct).imp fun {a b} hab heq => ?_
  rw [heq, hops.refl] at hab
  cases hab

/-- Where the key equality is equality, a count is a count of the distinct
keys. -/
theorem Counts.perm_dedup [DecidableEq κ] [BEq κ] [LawfulBEq κ] (hops : ops.Lawful) {xs : List κ}
    {l : List (κ × ℕ)} (h : Counts ops xs l)
    (heq : ∀ a ∈ xs, ∀ b ∈ xs, ops.eq a b = true → a = b) :
    l.Perm (xs.dedup.map fun x => (x, xs.count x)) := by
  have hkeys : (l.map Prod.fst).Perm xs.dedup := by
    rw [List.perm_ext_iff_of_nodup (h.keys_nodup hops) (List.nodup_dedup xs)]
    intro x
    rw [List.mem_dedup]
    constructor
    · intro hx
      obtain ⟨e, he, rfl⟩ := List.mem_map.mp hx
      exact (h.count e he).1
    · intro hx
      obtain ⟨e, he, hxe⟩ := h.seen x hx
      rw [heq x hx e.1 (h.count e he).1 hxe]
      exact List.mem_map_of_mem he
  have hl : l = (l.map Prod.fst).map fun x => (x, xs.count x) := by
    rw [List.map_map]
    refine ((List.map_congr_left fun e he => ?_).trans (List.map_id l)).symm
    obtain ⟨hmem, hcount⟩ := h.count e he
    have : xs.countP (ops.eq e.1) = xs.count e.1 := by
      rw [List.count]
      refine List.countP_congr fun x hx => ?_
      simp only [beq_iff_eq]
      exact ⟨fun hex => (heq _ hmem _ hx hex).symm, fun hxe => hxe ▸ hops.refl _⟩
    simp [← this, ← hcount]
  rw [hl]
  exact hkeys.map _

/-- A count that has as many entries as there are distinct keys has merged
none of them. -/
theorem Counts.eq_of_length [DecidableEq κ] (hops : ops.Lawful) {xs : List κ}
    {l : List (κ × ℕ)} (h : Counts ops xs l) (hlen : l.length = xs.dedup.length) :
    ∀ a ∈ xs, ∀ b ∈ xs, ops.eq a b = true → a = b := by
  have hsub : l.map Prod.fst ⊆ xs.dedup := by
    intro x hx
    obtain ⟨e, he, rfl⟩ := List.mem_map.mp hx
    exact List.mem_dedup.mpr (h.count e he).1
  have hperm : (l.map Prod.fst).Perm xs.dedup :=
    (List.subperm_of_subset (h.keys_nodup hops) hsub).perm_of_length_le (by simp [hlen])
  have hmem : ∀ a ∈ xs, a ∈ l.map Prod.fst := fun a ha =>
    hperm.mem_iff.mpr (List.mem_dedup.mpr ha)
  intro a ha b hb hab
  by_contra hne
  have : Std.Symm fun a b => ops.eq a b = false := ⟨fun _ _ => hops.symm_false⟩
  have hfalse := ((distinct_iff_keys _ _).mp h.distinct).forall (hmem a ha) (hmem b hb) hne
  rw [hab] at hfalse
  cases hfalse

theorem assocTally_counts (hops : ops.Lawful) (xs : List κ) :
    Counts ops xs (assocTally ops.eq xs) := by
  have h : Counts ops [] ([] : List (κ × ℕ)) := ⟨List.Pairwise.nil, by simp, by simp⟩
  simpa [assocTally] using counts_foldl hops xs h

end Lawful

/-- The counts of a tally add up to the number of keys counted. -/
theorem sum_tallyStep (eq : κ → κ → Bool) (l : List (κ × ℕ)) (k : κ) :
    ((tallyStep eq l k).map Prod.snd).sum = (l.map Prod.snd).sum + 1 := by
  unfold tallyStep
  cases hf : l.find? fun e => eq k e.1 with
  | none => simp [Nat.add_comm]
  | some e =>
      simp only
      induction l with
      | nil => simp at hf
      | cons e' es ih =>
          by_cases hk : eq k e'.1 = true
          · simp only [bump, hk, if_true, List.map_cons, List.sum_cons]; omega
          · have hes : (es.find? fun e => eq k e.1) = some e := by
              simpa [List.find?_cons, hk] using hf
            simp only [bump, hk, List.map_cons, List.sum_cons]
            have := ih hes
            simp only [Bool.false_eq_true, if_false, List.map_cons, List.sum_cons]
            omega

theorem assocTally_sum (eq : κ → κ → Bool) (xs : List κ) :
    ((assocTally eq xs).map Prod.snd).sum = xs.length := by
  have h : ∀ (ys : List κ) (l : List (κ × ℕ)),
      ((ys.foldl (tallyStep eq) l).map Prod.snd).sum = (l.map Prod.snd).sum + ys.length := by
    intro ys
    induction ys with
    | nil => simp
    | cons k ys ih => intro l; rw [List.foldl_cons, ih, sum_tallyStep, List.length_cons]; omega
  simpa [assocTally] using h xs []

/-! ### Tables -/

/-- A table is its array of buckets. -/
structure Table (κ β : Type) where
  buckets : List (List (κ × β))

namespace Table

variable (ops : KeyOps κ)

/-- A table of at least one bucket, all of them empty. -/
def empty (n : ℕ) : Table κ β := ⟨List.replicate (max 1 n) []⟩

/-- The entries in the order an iteration over the table meets them. -/
def entries (t : Table κ β) : List (κ × β) := t.buckets.flatten

/-- The bucket a key belongs in. -/
def index (t : Table κ β) (k : κ) : ℕ := ops.hash k % t.buckets.length

def find? (t : Table κ β) (k : κ) : Option (κ × β) :=
  (t.buckets.getD (t.index ops k) []).find? fun e => ops.eq k e.1

/-- Put an entry in front of its bucket. -/
def insertEntry (t : Table κ β) (e : κ × β) : Table κ β :=
  ⟨t.buckets.modify (t.index ops e.1) (e :: ·)⟩

def rehash (t : Table κ β) (n : ℕ) : Table κ β :=
  t.entries.foldl (insertEntry ops) (empty n)

/-- Insert an entry, after rehashing to the number of buckets that the policy
gives for the present numbers of buckets and entries. -/
def insert (grow : ℕ → ℕ → ℕ) (t : Table κ β) (e : κ × β) : Table κ β :=
  insertEntry ops (rehash ops t (grow t.buckets.length t.entries.length)) e

/-- Change the value of the entry found under a key. -/
def update (t : Table κ β) (k : κ) (f : β → β) : Table κ β :=
  ⟨t.buckets.modify (t.index ops k) (bump ops.eq k f)⟩

/-- Count the occurrences of each key. -/
def tally (grow : ℕ → ℕ → ℕ) (n : ℕ) (xs : List κ) : Table κ ℕ :=
  xs.foldl (fun t k => match t.find? ops k with
    | none => t.insert ops grow (k, 1)
    | some _ => t.update ops k (· + 1)) (empty n)

/-- Every entry is in the bucket its key belongs in. -/
structure Placed (t : Table κ β) : Prop where
  pos : 0 < t.buckets.length
  index_eq : ∀ i (hi : i < t.buckets.length), ∀ e ∈ t.buckets[i], t.index ops e.1 = i

variable {ops}

theorem placed_empty (n : ℕ) : (empty n : Table κ β).Placed ops :=
  ⟨by simp only [empty, List.length_replicate]; omega, by simp [empty]⟩

theorem Placed.index_lt {t : Table κ β} (ht : t.Placed ops) (k : κ) :
    t.index ops k < t.buckets.length := Nat.mod_lt _ ht.pos

/-- The entries of a table, split at the bucket of a key. -/
theorem entries_eq {t : Table κ β} (k : κ) (hk : t.index ops k < t.buckets.length) :
    t.entries = (t.buckets.take (t.index ops k)).flatten ++
      (t.buckets[t.index ops k] ++ (t.buckets.drop (t.index ops k + 1)).flatten) := by
  have h := List.take_append_drop (t.index ops k) t.buckets
  rw [List.drop_eq_getElem_cons hk] at h
  exact (congrArg List.flatten h).symm.trans
    (by simp only [List.flatten_append, List.flatten_cons])

/-- The same after the bucket has been modified. -/
theorem entries_modify {t : Table κ β} (k : κ) (hk : t.index ops k < t.buckets.length)
    (f : List (κ × β) → List (κ × β)) :
    entries ⟨t.buckets.modify (t.index ops k) f⟩ =
      (t.buckets.take (t.index ops k)).flatten ++
        (f t.buckets[t.index ops k] ++ (t.buckets.drop (t.index ops k + 1)).flatten) := by
  rw [entries, List.modify_eq_take_cons_drop hk]
  simp

theorem find?_mem {t : Table κ β} {k : κ} {e : κ × β} (h : t.find? ops k = some e) :
    e ∈ t.entries ∧ ops.eq k e.1 = true := by
  refine ⟨?_, by simpa using List.find?_some h⟩
  have hmem := List.mem_of_find?_eq_some h
  rw [List.getD_eq_getElem?_getD] at hmem
  cases hb : t.buckets[t.index ops k]? with
  | none => simp [hb] at hmem
  | some b =>
      rw [hb] at hmem
      exact List.mem_flatten.mpr ⟨b, List.mem_of_getElem? hb, hmem⟩

/-- A table searches its whole contents: an equal key has the same hash and
so is in the bucket that is searched. -/
theorem Placed.find?_eq_none (hops : ops.Lawful) {t : Table κ β} (ht : t.Placed ops) (k : κ)
    (h : t.find? ops k = none) : ∀ e ∈ t.entries, ops.eq k e.1 = false := by
  intro e he
  by_contra hk
  rw [Bool.not_eq_false] at hk
  obtain ⟨b, hb, heb⟩ := List.mem_flatten.mp he
  obtain ⟨i, hi, rfl⟩ := List.getElem_of_mem hb
  have hidx : t.index ops k = i := by
    rw [index, hops.hash _ _ hk]
    exact ht.index_eq i hi e heb
  subst hidx
  rw [find?, List.getD_eq_getElem?_getD, List.getElem?_eq_getElem hi] at h
  exact List.find?_eq_none.mp h e heb hk

theorem Placed.insertEntry {t : Table κ β} (ht : t.Placed ops) (e : κ × β) :
    (t.insertEntry ops e).Placed ops := by
  refine ⟨by simpa [Table.insertEntry] using ht.pos, ?_⟩
  intro i hi x hx
  have hlen : (t.insertEntry ops e).buckets.length = t.buckets.length := by
    simp [Table.insertEntry]
  simp only [index, hlen]
  simp only [Table.insertEntry, List.getElem_modify] at hx
  split at hx
  · rename_i heq
    rcases List.mem_cons.mp hx with rfl | hx
    · exact heq
    · exact ht.index_eq i (by omega) x hx
  · exact ht.index_eq i (by omega) x hx

theorem Placed.insertEntry_perm {t : Table κ β} (ht : t.Placed ops) (e : κ × β) :
    (t.insertEntry ops e).entries.Perm (e :: t.entries) := by
  rw [Table.insertEntry, entries_modify e.1 (ht.index_lt _),
    entries_eq e.1 (ht.index_lt _)]
  exact List.perm_middle

theorem foldl_insertEntry (l : List (κ × β)) {t : Table κ β} (ht : t.Placed ops) :
    (l.foldl (Table.insertEntry ops) t).Placed ops ∧
      (l.foldl (Table.insertEntry ops) t).entries.Perm (l ++ t.entries) := by
  induction l generalizing t with
  | nil => exact ⟨ht, List.Perm.refl _⟩
  | cons e l ih =>
      obtain ⟨hplaced, hperm⟩ := ih (ht.insertEntry e)
      refine ⟨hplaced, hperm.trans ?_⟩
      calc
        (l ++ (t.insertEntry ops e).entries).Perm (l ++ e :: t.entries) :=
          (ht.insertEntry_perm e).append_left l
        _ |>.Perm (e :: (l ++ t.entries)) := List.perm_middle

/-- Rehashing moves the entries and nothing else. -/
theorem placed_rehash (t : Table κ β) (n : ℕ) : (t.rehash ops n).Placed ops :=
  (foldl_insertEntry t.entries (placed_empty n)).1

theorem rehash_perm (t : Table κ β) (n : ℕ) : (t.rehash ops n).entries.Perm t.entries := by
  have hempty : (empty n : Table κ β).Placed ops := placed_empty n
  simpa [rehash, empty, entries] using (foldl_insertEntry t.entries hempty).2

theorem placed_insert (grow : ℕ → ℕ → ℕ) (t : Table κ β) (e : κ × β) :
    (t.insert ops grow e).Placed ops := (placed_rehash t _).insertEntry e

theorem insert_perm (grow : ℕ → ℕ → ℕ) (t : Table κ β) (e : κ × β) :
    (t.insert ops grow e).entries.Perm (e :: t.entries) :=
  ((placed_rehash t _).insertEntry_perm e).trans ((rehash_perm t _).cons e)

theorem Placed.update {t : Table κ β} (ht : t.Placed ops) (k : κ) (f : β → β) :
    (t.update ops k f).Placed ops := by
  refine ⟨by simpa [Table.update] using ht.pos, ?_⟩
  intro i hi x hx
  have hlen : (t.update ops k f).buckets.length = t.buckets.length := by simp [Table.update]
  simp only [index, hlen]
  simp only [Table.update, List.getElem_modify] at hx
  split at hx
  · have hi' : i < t.buckets.length := by omega
    have hkey : x.1 ∈ t.buckets[i].map Prod.fst := by
      rw [← bump_keys ops.eq k f]
      exact List.mem_map_of_mem hx
    obtain ⟨y, hy, hxy⟩ := List.mem_map.mp hkey
    rw [← hxy]
    exact ht.index_eq i hi' y hy
  · exact ht.index_eq i (by omega) x hx

/-- Updating the bucket of a key updates the entries: no other bucket holds
an equal key. -/
theorem Placed.update_entries (hops : ops.Lawful) {t : Table κ β} (ht : t.Placed ops)
    (hd : Distinct ops.eq t.entries) (k : κ) (f : β → β) :
    (t.update ops k f).entries = bump ops.eq k f t.entries := by
  rw [bump_eq_map hops hd, Table.update, entries_modify k (ht.index_lt k)]
  have hidx := ht.index_lt k
  rw [entries_eq k hidx] at hd ⊢
  have hbucket : Distinct ops.eq t.buckets[t.index ops k] :=
    (List.pairwise_append.mp (List.pairwise_append.mp hd).2.1).1
  -- By the hash: another bucket has another index, so none of its keys is equal.
  have hother : ∀ i (hi : i < t.buckets.length), i ≠ t.index ops k →
      ∀ e ∈ t.buckets[i], (if ops.eq k e.1 then (e.1, f e.2) else e) = e := by
    intro i hi hne e he
    have hk : ops.eq k e.1 = false := by
      by_contra hk
      rw [Bool.not_eq_false] at hk
      exact hne (by rw [← ht.index_eq i hi e he, index, index, hops.hash _ _ hk])
    simp [hk]
  have hsame : ∀ l : List (List (κ × β)), (∀ b ∈ l, ∃ i, ∃ hi : i < t.buckets.length,
      i ≠ t.index ops k ∧ b = t.buckets[i]) →
      l.flatten.map (fun e => if ops.eq k e.1 then (e.1, f e.2) else e) = l.flatten := by
    intro l hl
    refine (List.map_congr_left fun e he => ?_).trans (List.map_id _)
    obtain ⟨b, hb, heb⟩ := List.mem_flatten.mp he
    obtain ⟨i, hi, hne, rfl⟩ := hl b hb
    exact hother i hi hne e heb
  rw [bump_eq_map hops hbucket, List.map_append, List.map_append, hsame, hsame]
  · intro b hb
    obtain ⟨i, hi, rfl⟩ := List.getElem_of_mem hb
    rw [List.length_drop] at hi
    exact ⟨_, by omega, by omega, List.getElem_drop⟩
  · intro b hb
    obtain ⟨i, hi, rfl⟩ := List.getElem_of_mem hb
    rw [List.length_take] at hi
    exact ⟨i, by omega, by omega, List.getElem_take⟩

/-- One count in a table is one count in the association list of its entries. -/
theorem Placed.tallyStep_perm (hops : ops.Lawful) (grow : ℕ → ℕ → ℕ) {t : Table κ ℕ}
    (ht : t.Placed ops) (hd : Distinct ops.eq t.entries) (k : κ) :
    (match t.find? ops k with
      | none => t.insert ops grow (k, 1)
      | some _ => t.update ops k (· + 1)).Placed ops ∧
    (match t.find? ops k with
      | none => t.insert ops grow (k, 1)
      | some _ => t.update ops k (· + 1)).entries.Perm (tallyStep ops.eq t.entries k) := by
  cases hf : t.find? ops k with
  | none =>
      have hnone : (t.entries.find? fun e => ops.eq k e.1) = none := by
        rw [List.find?_eq_none]
        intro e he
        simp [ht.find?_eq_none hops k hf e he]
      have hstep : tallyStep ops.eq t.entries k = (k, 1) :: t.entries := by simp [tallyStep, hnone]
      rw [hstep]
      exact ⟨placed_insert grow t _, insert_perm grow t _⟩
  | some e =>
      obtain ⟨he, hke⟩ := find?_mem hf
      have hstep : tallyStep ops.eq t.entries k = bump ops.eq k (· + 1) t.entries := by
        cases hf' : t.entries.find? fun e => ops.eq k e.1 with
        | none =>
            have hnot := List.find?_eq_none.mp hf' e he
            exact absurd hke hnot
        | some e' => simp [tallyStep, hf']
      rw [hstep]
      exact ⟨ht.update k _, .of_eq (ht.update_entries hops hd k _)⟩

theorem tally_foldl_perm (hops : ops.Lawful) (grow : ℕ → ℕ → ℕ) (xs : List κ)
    {t : Table κ ℕ} {l : List (κ × ℕ)} (ht : t.Placed ops) (hl : Distinct ops.eq l)
    (hperm : t.entries.Perm l) :
    (xs.foldl (fun t k => match t.find? ops k with
      | none => t.insert ops grow (k, 1)
      | some _ => t.update ops k (· + 1)) t).entries.Perm (xs.foldl (tallyStep ops.eq) l) := by
  induction xs generalizing t l with
  | nil => exact hperm
  | cons k xs ih =>
      rw [List.foldl_cons, List.foldl_cons]
      have hd : Distinct ops.eq t.entries := hl.perm hops hperm.symm
      obtain ⟨hplaced, hentries⟩ := ht.tallyStep_perm hops grow hd k
      -- The list need not hold the entries in the order of the table.
      have hsame := UnorderedMap.tallyStep_perm hops hperm hd k
      exact ih hplaced (distinct_tallyStep hl k) (hentries.trans hsame)

/-- **Tables count as association lists do**, for every hash, number of
buckets and growth policy, as long as equal keys have equal hashes. -/
theorem tally_perm (hops : ops.Lawful) (grow : ℕ → ℕ → ℕ) (n : ℕ) (xs : List κ) :
    (tally ops grow n xs).entries.Perm (assocTally ops.eq xs) :=
  tally_foldl_perm hops grow xs (placed_empty n) List.Pairwise.nil (by simp [empty, entries])

end Table

end UnorderedMap
