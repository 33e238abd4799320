import Mathlib.Data.List.Dedup
import Mathlib.Data.List.Induction
import SignerVoting.Lru

/-!
# Recency

A bounded memory holds what it was last used for. Without a bound it would hold an entry for every
key it was ever used with, the value being that of the last use, and the most recent use first
(`recency`). With a bound it holds the first of these, as many as there is room for
(`entries_ofUses`).

* `find?_ofUses_eq_some_iff`: so a value is found exactly if it is that of the last use of its key,
  and there is room for the other keys used since;
* `eq_or_find?_of_find?_insert`: a use brings no value into the memory but its own.
-/

namespace SignerVoting

namespace Lru

variable {κ ν : Type} [DecidableEq κ]

theorem lookup_eq_none {k : κ} {entries : List (κ × ν)} (h : k ∉ entries.map Prod.fst) :
    entries.lookup k = none := by
  rw [List.lookup_eq_none_iff]
  intro e he
  have hne : k ≠ e.1 := fun hk => h (hk ▸ List.mem_map_of_mem he)
  simpa using hne

theorem mem_entries_of_find? {l : Lru κ ν} {k : κ} {v : ν} (h : l.find? k = some v) :
    (k, v) ∈ l.entries := by
  obtain ⟨before, after, hentries, -⟩ := List.lookup_eq_some_iff.1 h
  simp [hentries]

/-! ## One use -/

theorem lookup_of_lookup_take {k : κ} {v : ν} {n : Nat} {entries : List (κ × ν)}
    (h : (entries.take n).lookup k = some v) : entries.lookup k = some v := by
  rw [← List.take_append_drop n entries, List.lookup_append, h]
  rfl

theorem lookup_filter_ne {k k' : κ} (hne : k' ≠ k) (entries : List (κ × ν)) :
    (entries.filter fun e => e.1 ≠ k).lookup k' = entries.lookup k' := by
  induction entries with
  | nil => rfl
  | cons e entries ih =>
    by_cases he : e.1 = k
    · have hother : (k' == e.1) = false := by simpa [he] using hne
      rw [List.filter_cons_of_neg (by simpa using he), ih, List.lookup_cons, hother]
    · rw [List.filter_cons_of_pos (by simpa using he), List.lookup_cons, List.lookup_cons, ih]

/-- What is found after a use is the value of that use, or was found before. -/
theorem eq_or_find?_of_find?_insert {l : Lru κ ν} {k k' : κ} {v w : ν}
    (h : (l.insert k v).find? k' = some w) :
    (k' = k ∧ w = v) ∨ (k' ≠ k ∧ l.find? k' = some w) := by
  have hfound : ((k, v) :: l.entries.filter fun e => e.1 ≠ k).lookup k' = some w :=
    lookup_of_lookup_take h
  by_cases hk : k' = k
  · subst hk
    rw [List.lookup_cons_self] at hfound
    exact .inl ⟨rfl, (Option.some.inj hfound).symm⟩
  · have hother : (k' == k) = false := by simpa using hk
    rw [List.lookup_cons, hother] at hfound
    exact .inr ⟨hk, (lookup_filter_ne hk l.entries).symm.trans hfound⟩

/-- A second use in a row changes nothing. -/
@[simp]
theorem insert_insert_self (l : Lru κ ν) (k : κ) (v : ν) :
    (l.insert k v).insert k v = l.insert k v := by
  obtain ⟨capacity, entries⟩ := l
  cases capacity with
  | zero => rfl
  | succ n =>
    have hother : ∀ e ∈ (entries.filter fun e => e.1 ≠ k).take n, e.1 ≠ k := fun e he => by
      simpa using (List.mem_filter.1 (List.mem_of_mem_take he)).2
    simp only [insert, List.take_succ_cons]
    rw [List.filter_cons_of_neg (by simp), List.filter_eq_self.2 (by simpa using hother),
      List.take_take, Nat.min_self]

/-! ## Many uses -/

/-- The memory after these uses, each of a key with a value. -/
def ofUses (capacity : Nat) (uses : List (κ × ν)) : Lru κ ν :=
  uses.foldl (fun l use => l.insert use.1 use.2) (.empty capacity)

/-- The last use of every key, the most recent first. -/
def recency (uses : List (κ × ν)) : List (κ × ν) :=
  uses.foldl (fun order use => use :: order.filter fun e => e.1 ≠ use.1) []

variable {capacity : Nat} {uses before since : List (κ × ν)} {use : κ × ν} {k : κ} {v : ν}

theorem ofUses_concat :
    ofUses capacity (uses ++ [use]) = (ofUses capacity uses).insert use.1 use.2 := by
  simp [ofUses]

theorem recency_concat :
    recency (uses ++ [use]) = use :: (recency uses).filter fun e => e.1 ≠ use.1 := by
  simp [recency]

@[simp]
theorem capacity_ofUses (capacity : Nat) (uses : List (κ × ν)) :
    (ofUses capacity uses).capacity = capacity := by
  induction uses using List.reverseRecOn with
  | nil => rfl
  | append_singleton uses use ih => rw [ofUses_concat]; exact ih

theorem mem_map_recency : k ∈ (recency uses).map Prod.fst ↔ k ∈ uses.map Prod.fst := by
  induction uses using List.reverseRecOn with
  | nil => rfl
  | append_singleton uses use ih =>
    rw [recency_concat, List.map_cons, List.map_append, List.mem_cons, List.mem_append, ← ih]
    by_cases hk : k = use.1
    · simp [hk]
    · have hne : ∀ w, (k, w) ∈ (recency uses).filter (fun e => e.1 ≠ use.1) ↔
          (k, w) ∈ recency uses := fun w => by simp [hk]
      simp [hk]

theorem nodup_map_recency (uses : List (κ × ν)) : ((recency uses).map Prod.fst).Nodup := by
  induction uses using List.reverseRecOn with
  | nil => exact .nil
  | append_singleton uses use ih =>
    rw [recency_concat, List.map_cons, List.nodup_cons]
    refine ⟨?_, ih.sublist (List.filter_sublist.map _)⟩
    simp

/-- There is one entry for each key. -/
theorem length_recency (uses : List (κ × ν)) :
    (recency uses).length = (uses.map Prod.fst).dedup.length := by
  have hperm := (List.perm_ext_iff_of_nodup (nodup_map_recency uses)
    (List.nodup_dedup (uses.map Prod.fst))).2 fun k => by rw [mem_map_recency, List.mem_dedup]
  rw [← hperm.length_eq, List.length_map]

/-- Taking one key out of the first entries and taking the first entries of what is left comes to
    the same, with one entry less: a key has one entry. -/
theorem take_filter_take {order : List (κ × ν)} (h : (order.map Prod.fst).Nodup) (k : κ) (n : Nat) :
    ((order.take (n + 1)).filter fun e => e.1 ≠ k).take n =
      (order.filter fun e => e.1 ≠ k).take n := by
  induction order generalizing n with
  | nil => rfl
  | cons e order ih =>
    obtain ⟨he, hrest⟩ := List.nodup_cons.1 h
    by_cases hk : e.1 = k
    · -- No other entry has the key.
      have hall : ∀ d ∈ order, d.1 ≠ k := fun d hd hdk =>
        he (hk.trans hdk.symm ▸ List.mem_map_of_mem hd)
      have hfirst : ∀ d ∈ order.take n, d.1 ≠ k := fun d hd => hall d (List.mem_of_mem_take hd)
      rw [List.take_succ_cons, List.filter_cons_of_neg (by simpa using hk),
        List.filter_cons_of_neg (by simpa using hk), List.filter_eq_self.2 (by simpa using hfirst),
        List.filter_eq_self.2 (by simpa using hall), List.take_take, Nat.min_self]
    · rw [List.take_succ_cons, List.filter_cons_of_pos (by simpa using hk),
        List.filter_cons_of_pos (by simpa using hk)]
      cases n with
      | zero => rfl
      | succ n => rw [List.take_succ_cons, List.take_succ_cons, ih hrest n]

/-- The memory holds the most recent uses, as many as there is room for. -/
theorem entries_ofUses (capacity : Nat) (uses : List (κ × ν)) :
    (ofUses capacity uses).entries = (recency uses).take capacity := by
  induction uses using List.reverseRecOn with
  | nil => exact List.take_nil.symm
  | append_singleton uses use ih =>
    rw [ofUses_concat, recency_concat, insert, capacity_ofUses, ih]
    cases capacity with
    | zero => rfl
    | succ n =>
      rw [List.take_succ_cons, List.take_succ_cons, take_filter_take (nodup_map_recency uses)]

/-- Later uses come first, and replace what was known of their keys. -/
theorem recency_append (before since : List (κ × ν)) :
    recency (before ++ since) =
      recency since ++ (recency before).filter fun e => e.1 ∉ since.map Prod.fst := by
  induction since using List.reverseRecOn with
  | nil => simp [recency]
  | append_singleton since use ih =>
    rw [← List.append_assoc, recency_concat, ih, recency_concat, List.filter_append,
      List.filter_filter, List.cons_append]
    congr 2
    refine List.filter_congr fun e _ => ?_
    rw [Bool.eq_iff_iff]
    simp [and_comm]

/-- A key that was used was used a last time. -/
theorem exists_last_use (h : k ∈ uses.map Prod.fst) :
    ∃ before v since, uses = before ++ (k, v) :: since ∧ k ∉ since.map Prod.fst := by
  induction uses using List.reverseRecOn with
  | nil => cases h
  | append_singleton uses use ih =>
    by_cases hk : use.1 = k
    · exact ⟨uses, use.2, [], by rw [← hk], List.not_mem_nil⟩
    · rw [List.map_append, List.mem_append] at h
      obtain ⟨before, v, since, rfl, hsince⟩ := ih (h.resolve_right (by simp [Ne.symm hk]))
      refine ⟨before, v, since ++ [use], by simp, ?_⟩
      simpa [Ne.symm hk] using hsince

/-- After its last use a key is found as long as there is room for the other keys used since. -/
theorem find?_ofUses_of_last (h : k ∉ since.map Prod.fst) :
    (ofUses capacity (before ++ (k, v) :: since)).find? k =
      if (since.map Prod.fst).dedup.length < capacity then some v else none := by
  have hfirst : k ∉ (recency since).map Prod.fst := fun hk => h (mem_map_recency.1 hk)
  obtain ⟨rest, horder⟩ : ∃ rest,
      recency (before ++ (k, v) :: since) = recency since ++ (k, v) :: rest := by
    refine ⟨((recency before).filter fun e => e.1 ≠ k).filter fun e => e.1 ∉ since.map Prod.fst, ?_⟩
    rw [List.append_cons, recency_append, recency_concat,
      List.filter_cons_of_pos (by simpa using h)]
  rw [find?, entries_ofUses, horder, ← length_recency]
  split
  · rename_i hlt
    obtain ⟨n, hn⟩ := Nat.exists_eq_add_of_lt hlt
    rw [hn, Nat.add_assoc, List.take_length_add_append, List.take_succ_cons, List.lookup_append,
      lookup_eq_none hfirst]
    simp
  · rename_i hle
    rw [List.take_append_of_le_length (Nat.not_lt.1 hle)]
    exact lookup_eq_none fun hk => hfirst (List.map_take ▸ hk |> List.mem_of_mem_take)

/-- A value is found exactly if it is that of the last use of its key, and there is room for the
    other keys used since. -/
theorem find?_ofUses_eq_some_iff :
    (ofUses capacity uses).find? k = some v ↔
      ∃ before since, uses = before ++ (k, v) :: since ∧ k ∉ since.map Prod.fst ∧
        (since.map Prod.fst).dedup.length < capacity := by
  constructor
  · intro hfound
    by_cases hk : k ∈ uses.map Prod.fst
    · obtain ⟨before, w, since, rfl, hsince⟩ := exists_last_use hk
      rw [find?_ofUses_of_last hsince] at hfound
      split at hfound
      · rename_i hlt
        obtain rfl := Option.some.inj hfound
        exact ⟨before, since, rfl, hsince, hlt⟩
      · cases hfound
    · rw [find?, entries_ofUses, lookup_eq_none] at hfound
      · cases hfound
      · exact fun hmem => hk (mem_map_recency.1 (List.map_take ▸ hmem |> List.mem_of_mem_take))
  · rintro ⟨before, since, rfl, hsince, hlt⟩
    rw [find?_ofUses_of_last hsince, if_pos hlt]

end Lru

end SignerVoting
