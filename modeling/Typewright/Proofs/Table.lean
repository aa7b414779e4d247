import Typewright.Reference.Tables

/-!
# Tables

What a lookup finds after a value was put under a key, and which entries a table then has.
-/

namespace Typewright.Table

variable {α : Type} {k k' l : String}

theorem get?_put (t : Table α) (k k' : String) (v : α) :
    (t.put k v).get? k' = if k = k' then some v else t.get? k' := by
  induction t with
  | nil => rfl
  | cons e rest ih =>
    obtain ⟨l, w⟩ := e
    simp only [put]
    by_cases hl : l = k
    · subst hl
      simp only [if_true, get?]
      split <;> rfl
    rw [if_neg hl]
    simp only [get?, ih]
    by_cases hk : k = k'
    · subst hk
      rw [if_neg hl, if_pos rfl, if_pos rfl]
    · simp only [if_neg hk]

@[simp] theorem get?_put_self (t : Table α) (k : String) (v : α) : (t.put k v).get? k = some v := by
  rw [get?_put, if_pos rfl]

theorem get?_put_of_ne (t : Table α) (v : α) (h : k ≠ k') : (t.put k v).get? k' = t.get? k' := by
  rw [get?_put, if_neg h]

theorem get?_put_of_fresh {t : Table α} {v w : α} (fresh : t.get? k = none)
    (found : t.get? k' = some w) : (t.put k v).get? k' = some w := by
  have hne : k ≠ k' := by
    rintro rfl
    rw [fresh] at found
    cases found
  rw [get?_put_of_ne t v hne, found]

theorem put_of_get? {t : Table α} {v : α} (found : t.get? k = some v) : t.put k v = t := by
  induction t with
  | nil => cases found
  | cons e rest ih =>
    obtain ⟨l, w⟩ := e
    simp only [get?] at found
    simp only [put]
    split
    · next hl =>
      rw [if_pos hl] at found
      cases found
      rfl
    · next hl =>
      rw [if_neg hl] at found
      rw [ih found]

theorem mem_of_get? {t : Table α} {v : α} (found : t.get? k = some v) : (k, v) ∈ t := by
  induction t with
  | nil => cases found
  | cons e rest ih =>
    obtain ⟨l, w⟩ := e
    simp only [get?] at found
    split at found
    · next hl =>
      subst hl
      cases found
      exact .head _
    · exact .tail _ (ih found)

theorem eq_or_mem_of_mem_put {t : Table α} {v : α} {e : String × α} (h : e ∈ t.put k v) : e = (k, v) ∨ e ∈ t := by
  induction t with
  | nil => exact .inl (List.mem_singleton.mp h)
  | cons f rest ih =>
    obtain ⟨l, w⟩ := f
    simp only [put] at h
    split at h
    · next hl =>
      subst hl
      rcases List.mem_cons.mp h with rfl | h
      · exact .inl rfl
      · exact .inr (.tail _ h)
    · rcases List.mem_cons.mp h with rfl | h
      · exact .inr (.head _)
      · exact (ih h).imp id (List.mem_cons_of_mem _)

theorem mem_put_of_mem {t : Table α} {v w : α} (h : (l, w) ∈ t) (same : l = k → w = v) : (l, w) ∈ t.put k v := by
  induction t with
  | nil => cases h
  | cons f rest ih =>
    obtain ⟨m, u⟩ := f
    simp only [put]
    split
    · next hm =>
      subst hm
      rcases List.mem_cons.mp h with h | h
      · cases h
        rw [same rfl]
        exact .head _
      · exact .tail _ h
    · rcases List.mem_cons.mp h with h | h
      · exact h ▸ (.head _)
      · exact .tail _ (ih h)

theorem mem_put_self (t : Table α) (k : String) (v : α) : (k, v) ∈ t.put k v :=
  mem_of_get? (get?_put_self t k v)

/-! ## Keys -/

theorem put_of_fresh {t : Table α} {v : α} (fresh : k ∉ t.keys) : t.put k v = t ++ [(k, v)] := by
  induction t with
  | nil => rfl
  | cons e rest ih =>
    obtain ⟨l, w⟩ := e
    simp only [keys, List.map_cons, List.mem_cons, not_or] at fresh
    rw [put, if_neg (Ne.symm fresh.1), ih fresh.2]
    rfl

theorem keys_put_of_mem {t : Table α} {v : α} (h : k ∈ t.keys) : (t.put k v).keys = t.keys := by
  induction t with
  | nil => cases h
  | cons e rest ih =>
    obtain ⟨l, w⟩ := e
    simp only [put]
    split
    · rfl
    · next hl =>
      have hrest : k ∈ keys rest := (List.mem_cons.mp h).resolve_left (Ne.symm hl)
      simp only [keys, List.map_cons] at ih ⊢
      rw [ih hrest]

theorem mem_keys_put {t : Table α} {v : α} (h : l ∈ t.keys) : l ∈ (t.put k v).keys := by
  by_cases hk : k ∈ t.keys
  · rwa [keys_put_of_mem hk]
  · rw [put_of_fresh hk, keys, List.map_append]
    exact List.mem_append_left _ h

theorem nodup_keys_put {t : Table α} (h : t.keys.Nodup) (k : String) (v : α) : (t.put k v).keys.Nodup := by
  by_cases hk : k ∈ t.keys
  · rw [keys_put_of_mem hk]
    exact h
  rw [put_of_fresh hk, keys, List.map_append, List.nodup_append]
  refine ⟨h, by simp, ?_⟩
  rintro a ha b hb rfl
  have heq : a = k := List.mem_singleton.mp hb
  exact hk (heq ▸ ha)

def putAll (t : Table α) (es : List (String × α)) : Table α :=
  es.foldl (fun t e => t.put e.1 e.2) t

theorem putAll_cons (t : Table α) (e : String × α) (es : List (String × α)) :
    t.putAll (e :: es) = (t.put e.1 e.2).putAll es := rfl

theorem get?_putAll_of_not_mem {es : List (String × α)} (h : k ∉ keys es)
    (t : Table α) : (t.putAll es).get? k = t.get? k := by
  induction es generalizing t with
  | nil => rfl
  | cons e rest ih =>
    simp only [keys, List.map_cons, List.mem_cons, not_or] at h
    rw [putAll_cons, ih h.2, get?_put_of_ne _ _ (Ne.symm h.1)]

theorem get?_putAll_of_last (t : Table α) (before : List (String × α)) {after : List (String × α)}
    (v : α) (last : k ∉ keys after) : (t.putAll (before ++ (k, v) :: after)).get? k = some v := by
  unfold putAll
  rw [List.foldl_append]
  exact (get?_putAll_of_not_mem last _).trans (get?_put_self _ k v)

theorem has_putAll {t : Table α} (h : t.has k) (es : List (String × α)) : (t.putAll es).has k := by
  induction es generalizing t with
  | nil => exact h
  | cons e rest ih =>
    refine ih ?_
    unfold has at h ⊢
    rw [get?_put]
    split
    · rfl
    · exact h

theorem length_putAll_le (t : Table α) (es : List (String × α)) : (t.putAll es).length ≤ t.length + es.length := by
  induction es generalizing t with
  | nil => exact Nat.le_refl _
  | cons e rest ih =>
    have hput : (t.put e.1 e.2).length ≤ t.length + 1 := by
      by_cases hk : e.1 ∈ t.keys
      · have hlength := congrArg List.length (keys_put_of_mem (v := e.2) hk)
        simp only [keys, List.length_map] at hlength
        omega
      · simp [put_of_fresh hk]
    rw [putAll_cons, List.length_cons]
    have := ih (t.put e.1 e.2)
    omega

theorem putAll_of_nodup {t : Table α} {es : List (String × α)} (h : (keys (t ++ es)).Nodup) :
    t.putAll es = t ++ es := by
  induction es generalizing t with
  | nil => exact (List.append_nil t).symm
  | cons e rest ih =>
    have hfresh : e.1 ∉ t.keys := by
      rw [keys, List.map_append, List.nodup_append] at h
      exact fun hk => h.2.2 _ hk _ (.head _) rfl
    rw [putAll_cons, put_of_fresh hfresh, ih (by simpa using h), List.append_assoc]
    rfl

theorem nodup_of_length_putAll {t : Table α} {es : List (String × α)} (nodup : t.keys.Nodup)
    (h : (t.putAll es).length = t.length + es.length) : (keys (t ++ es)).Nodup := by
  induction es generalizing t with
  | nil => simpa using nodup
  | cons e rest ih =>
    rw [putAll_cons, List.length_cons] at h
    have hfresh : e.1 ∉ t.keys := by
      intro hk
      -- an entry in the place of another one makes the table no longer
      have hlength := congrArg List.length (keys_put_of_mem (v := e.2) hk)
      simp only [keys, List.length_map] at hlength
      have := length_putAll_le (t.put e.1 e.2) rest
      omega
    have hput : t.put e.1 e.2 = t ++ [e] := put_of_fresh hfresh
    have hnodup := nodup_keys_put nodup e.1 e.2
    rw [hput] at h hnodup
    have hrest := ih hnodup (by rw [h, List.length_append, List.length_singleton]; omega)
    simpa using hrest

theorem nodup_keys_putAll {t : Table α} (h : t.keys.Nodup) (es : List (String × α)) : (t.putAll es).keys.Nodup := by
  induction es generalizing t with
  | nil => exact h
  | cons e rest ih => exact ih (nodup_keys_put h e.1 e.2)

end Typewright.Table
