import Mathlib.Data.List.Nodup

/-
  Async/Records.lean --- entries under keys, in the order in which the keys came.

  What a `Map` or a plain object of the program holds: a key is written over in its place.  An
  array that is only pushed to keeps what stands at an index (`getElem?_snoc`).  A code whose
  values for some texts are listed reads them back (`Code.decode_encode`).

  Nothing here names a particular program.
-/

set_option autoImplicit false

namespace LibreWallet.Async.Records

variable {α β : Type} [DecidableEq α]

/-- `record[key] = value` -/
def put (record : List (α × β)) (key : α) (value : β) : List (α × β) :=
  if record.any (·.1 = key) then record.map fun e => if e.1 = key then (key, value) else e
  else record ++ [(key, value)]

/-- What is found for the keys of a list is put into a record. -/
def collect (found : α → Option β) (keys : List α) (record : List (α × β)) : List (α × β) :=
  keys.foldl (fun record key => (found key).elim record (put record key)) record

/-- `delete` -/
def remove (record : List (α × β)) (key : α) : List (α × β) := record.filter fun e => e.1 ≠ key

variable {record : List (α × β)} {found : α → Option β} {keys : List α} {key k : α} {value v : β}

/-! ## The keys -/

theorem keys_put (record : List (α × β)) (key : α) (value : β) :
    (put record key value).map Prod.fst =
      if key ∈ record.map Prod.fst then record.map Prod.fst else record.map Prod.fst ++ [key] := by
  have hlisted : record.any (·.1 = key) = true ↔ key ∈ record.map Prod.fst := by
    simp only [List.any_eq_true, decide_eq_true_eq, List.mem_map]
  unfold put
  split
  · rename_i hkey
    rw [if_pos (hlisted.mp hkey), List.map_map]
    refine List.map_congr_left fun e _ => ?_
    rw [Function.comp_apply]
    split
    · rename_i he
      exact he.symm
    · rfl
  · rename_i hkey
    rw [if_neg (mt hlisted.mpr hkey), List.map_append, List.map_singleton]

theorem nodup_put (h : (record.map Prod.fst).Nodup) : ((put record key value).map Prod.fst).Nodup := by
  rw [keys_put]
  split
  · exact h
  · rename_i hkey
    rw [List.nodup_append]
    refine ⟨h, List.nodup_singleton key, fun k hk k' hk' => ?_⟩
    rw [List.mem_singleton.mp hk']
    exact fun heq => hkey (heq ▸ hk)

/-- No key stands twice. -/
theorem nodup_collect (h : (record.map Prod.fst).Nodup) :
    ((collect found keys record).map Prod.fst).Nodup := by
  induction keys generalizing record with
  | nil => exact h
  | cons key keys ih =>
    have hcollect : collect found (key :: keys) record =
        collect found keys ((found key).elim record (put record key)) := rfl
    rw [hcollect]
    refine ih ?_
    cases found key with
    | none => exact h
    | some value => exact nodup_put h

/-! ## What is found -/

section Lookup

variable [BEq α] [LawfulBEq α]

theorem lookup_cons_eq (record : List (α × β)) :
    ((key, value) :: record).lookup k = if k = key then some value else record.lookup k := by
  rw [List.lookup_cons]
  split
  · rename_i h
    rw [if_pos (by simpa using h)]
  · rename_i h
    rw [if_neg (by simpa using h)]

theorem lookup_replace (record : List (α × β)) (k : α) :
    (record.map fun e => if e.1 = key then (key, value) else e).lookup k =
      if k = key then (record.lookup k).map fun _ => value else record.lookup k := by
  induction record with
  | nil => simp
  | cons e record ih =>
    obtain ⟨k', v'⟩ := e
    rw [List.map_cons, lookup_cons_eq]
    dsimp only
    by_cases hkey : k' = key
    · subst hkey
      rw [if_pos rfl, lookup_cons_eq, ih]
      split
      · rfl
      · rfl
    · rw [if_neg hkey, lookup_cons_eq, ih]
      by_cases hk : k = k'
      · subst hk
        rw [if_pos rfl, if_pos rfl, if_neg hkey]
      · rw [if_neg hk, if_neg hk]

theorem lookup_put (record : List (α × β)) (key : α) (value : β) (k : α) :
    (put record key value).lookup k = if k = key then some value else record.lookup k := by
  have hlisted : record.any (·.1 = key) = (record.lookup key).isSome := by
    rw [Bool.eq_iff_iff, List.lookup_isSome_iff, List.any_eq_true]
    refine exists_congr fun e => and_congr_right fun _ => ?_
    rw [decide_eq_true_eq, beq_iff_eq]
    exact eq_comm
  unfold put
  rw [hlisted]
  cases hfound : record.lookup key with
  | some v =>
    rw [Option.isSome_some, if_pos rfl, lookup_replace]
    split
    · rename_i hk
      rw [hk, hfound]
      rfl
    · rfl
  | none =>
    rw [Option.isSome_none, if_neg Bool.false_ne_true, List.lookup_append, lookup_cons_eq]
    split
    · rename_i hk
      rw [hk, hfound]
      rfl
    · rw [List.lookup_nil, Option.or_none]

/-- A record holds what was found. -/
def Faithful (found : α → Option β) (record : List (α × β)) : Prop :=
  ∀ k v, record.lookup k = some v → found k = some v

theorem lookup_collect (h : Faithful found record) (k : α) :
    (collect found keys record).lookup k = if k ∈ keys then found k else record.lookup k := by
  induction keys generalizing record with
  | nil => rfl
  | cons key keys ih =>
    have hput : Faithful found ((found key).elim record (put record key)) ∧
        ∀ k, ((found key).elim record (put record key)).lookup k =
          if k = key then found k else record.lookup k := by
      cases hkey : found key with
      | none =>
        refine ⟨h, fun k => ?_⟩
        split
        · rename_i hk
          rw [hk, hkey, Option.elim_none, Option.eq_none_iff_forall_ne_some]
          intro v hv
          rw [h key v hv] at hkey
          cases hkey
        · rfl
      | some value =>
        refine ⟨fun k v hv => ?_, fun k => ?_⟩
        · rw [Option.elim_some, lookup_put] at hv
          split at hv
          · rename_i hk
            rw [hk, hkey, hv]
          · exact h k v hv
        · rw [Option.elim_some, lookup_put]
          split
          · rename_i hk
            rw [hk, hkey]
          · rfl
    have hcollect : collect found (key :: keys) record =
        collect found keys ((found key).elim record (put record key)) := rfl
    rw [hcollect, ih hput.1, hput.2]
    by_cases hk : k ∈ keys
    · rw [if_pos hk, if_pos (List.mem_cons_of_mem key hk)]
    · rw [if_neg hk]
      refine if_congr ?_ rfl rfl
      rw [List.mem_cons, or_iff_left hk]

theorem faithful_collect (h : Faithful found record) : Faithful found (collect found keys record) := by
  intro k v hv
  rw [lookup_collect h] at hv
  split at hv
  · exact hv
  · exact h k v hv

theorem lookup_remove (record : List (α × β)) (key k : α) :
    (remove record key).lookup k = if k = key then none else record.lookup k := by
  induction record with
  | nil => exact (ite_self none).symm
  | cons e record ih =>
    obtain ⟨k', v'⟩ := e
    unfold remove at ih ⊢
    by_cases hkey : k' = key
    · subst hkey
      rw [List.filter_cons_of_neg (by simp), ih, lookup_cons_eq]
      split
      · rfl
      · rfl
    · rw [List.filter_cons_of_pos (by simpa using hkey), lookup_cons_eq, lookup_cons_eq, ih]
      by_cases hk : k = k'
      · subst hk
        rw [if_pos rfl, if_pos rfl, if_neg hkey]
      · rw [if_neg hk, if_neg hk]

omit [DecidableEq α] in
theorem mem_of_lookup (h : record.lookup k = some v) : (k, v) ∈ record := by
  obtain ⟨front, back, rfl, -⟩ := List.lookup_eq_some_iff.mp h
  exact List.mem_append_right front List.mem_cons_self

end Lookup

/-! ## Indices -/

theorem getElem?_snoc {α : Type} {l : List α} {x y : α} {i : Nat} :
    (l ++ [x])[i]? = some y ↔ l[i]? = some y ∨ i = l.length ∧ x = y := by
  rcases Nat.lt_trichotomy i l.length with hlt | rfl | hlt
  · rw [List.getElem?_append_left hlt, or_iff_left fun h => (Nat.ne_of_lt hlt) h.1]
  · rw [List.getElem?_concat_length, List.getElem?_eq_none (Nat.le_refl _), Option.some.injEq]
    constructor
    · exact fun h => .inr ⟨rfl, h⟩
    · rintro (h | h)
      · cases h
      · exact h.2
  · rw [List.getElem?_eq_none (by rw [List.length_append]; exact hlt), List.getElem?_eq_none (Nat.le_of_lt hlt)]
    refine ⟨fun h => .inl h, fun h => h.elim id fun h => ?_⟩
    exact absurd h.1 (Nat.ne_of_gt hlt)

/-! ## Codes with a table -/

/-- A code: its values for some texts, and how it writes and reads the others. -/
structure Code (α β : Type) where
  listed : List (α × β)
  write : α → β
  read : β → Option α

namespace Code

variable {α β : Type} [DecidableEq α] (c : Code α β)

def encode (a : α) : β := (c.listed.lookup a).getD (c.write a)

def decode [DecidableEq β] (b : β) : Option α := ((c.listed.find? (·.2 = b)).map Prod.fst).or (c.read b)

/-- No two texts are written alike. -/
structure Lawful : Prop where
  distinct : (c.listed.map Prod.snd).Nodup
  apart : ∀ a, ∀ e ∈ c.listed, e.2 ≠ c.write a
  reads : ∀ a, c.read (c.write a) = some a

theorem encode_cases (a : α) : (a, c.encode a) ∈ c.listed ∨ c.encode a = c.write a := by
  unfold encode
  cases hlookup : c.listed.lookup a with
  | none => exact .inr rfl
  | some b => exact .inl (mem_of_lookup hlookup)

variable {c}

theorem decode_encode [DecidableEq β] (h : c.Lawful) (a : α) : c.decode (c.encode a) = some a := by
  unfold decode encode
  cases hlookup : c.listed.lookup a with
  | none =>
    have hnone : c.listed.find? (·.2 = c.write a) = none := by
      rw [List.find?_eq_none]
      exact fun e he heq => h.apart a e he (of_decide_eq_true heq)
    rw [Option.getD_none, hnone, Option.map_none, Option.none_or]
    exact h.reads a
  | some b =>
    have hmem := mem_of_lookup hlookup
    rw [Option.getD_some]
    cases hfind : c.listed.find? (·.2 = b) with
    | none => exact absurd (decide_eq_true rfl) (List.find?_eq_none.mp hfind (a, b) hmem)
    | some e =>
      have hb : e.2 = b := by simpa using List.find?_some hfind
      have hsame : e = (a, b) := List.inj_on_of_nodup_map h.distinct (List.mem_of_find?_eq_some hfind) hmem hb
      rw [hsame]
      rfl

end Code

end LibreWallet.Async.Records
