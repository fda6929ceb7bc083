import Mathlib.Tactic

/-!
# Doubly linked lists threaded through an array

The links live in two arrays `next` and `prev`; a list is known by its head
index and `nil` stands for the end. `IsList next prev nil h l` says that
following the links from `h` visits exactly the indices of `l`, once each, with
every back link in place. Pushing and unlinking are stated through what they do
to the two arrays, so that any record layout can use them.
-/

namespace LinkedArray

variable {ι : Type} [DecidableEq ι] {next prev next' prev' : ι → ι} {nil p h e : ι} {l : List ι}

/-- The links from `h`, whose predecessor is `p`, run through `l` to the end. -/
def Seg (next prev : ι → ι) (nil : ι) : ι → ι → List ι → Prop
  | _, h, [] => h = nil
  | p, h, x :: xs => h = x ∧ x ≠ nil ∧ prev x = p ∧ Seg next prev nil x (next x) xs

structure IsList (next prev : ι → ι) (nil h : ι) (l : List ι) : Prop where
  seg : Seg next prev nil nil h l
  nodup : l.Nodup

omit [DecidableEq ι] in
/-- Links outside the list do not matter. -/
theorem Seg.congr (hs : Seg next prev nil p h l)
    (hl : ∀ x ∈ l, next' x = next x ∧ prev' x = prev x) : Seg next' prev' nil p h l := by
  induction l generalizing p h with
  | nil => exact hs
  | cons x xs ih =>
      obtain ⟨rfl, hx, hp, hr⟩ := hs
      have hh := hl h (by simp)
      refine ⟨rfl, hx, hh.2.trans hp, ?_⟩
      rw [hh.1]
      exact ih hr fun y hy => hl y (by simp [hy])

omit [DecidableEq ι] in
theorem Seg.ne_nil (hs : Seg next prev nil p h l) {x : ι} (hx : x ∈ l) : x ≠ nil := by
  induction l generalizing p h with
  | nil => simp at hx
  | cons y ys ih =>
      obtain ⟨rfl, hy, -, hr⟩ := hs
      rcases List.mem_cons.mp hx with rfl | hx
      · exact hy
      · exact ih hr hx

omit [DecidableEq ι] in
/-- A forward link stays in the list or ends it. -/
theorem Seg.next_mem (hs : Seg next prev nil p h l) (he : e ∈ l) :
    next e = nil ∨ next e ∈ l := by
  induction l generalizing p h with
  | nil => simp at he
  | cons x xs ih =>
      obtain ⟨rfl, -, -, hr⟩ := hs
      rcases List.mem_cons.mp he with rfl | he
      · cases xs with
        | nil => exact .inl hr
        | cons y ys => exact .inr (by rw [hr.1]; simp)
      · exact (ih hr he).imp_right fun hm => by simp [hm]

omit [DecidableEq ι] in
/-- A back link is the given predecessor exactly at the head. -/
theorem Seg.prev_mem (hs : Seg next prev nil p h l) (hn : l.Nodup) (he : e ∈ l) :
    (prev e = p ∧ h = e) ∨ (prev e ∈ l ∧ h ≠ e) := by
  induction l generalizing p h with
  | nil => simp at he
  | cons x xs ih =>
      obtain ⟨rfl, -, hp, hr⟩ := hs
      rcases List.mem_cons.mp he with rfl | he
      · exact .inl ⟨hp, rfl⟩
      · have hne : h ≠ e := by
          rintro rfl
          exact (List.nodup_cons.mp hn).1 he
        rcases ih hr (List.nodup_cons.mp hn).2 he with ⟨hq, -⟩ | ⟨hm, -⟩
        · exact .inr ⟨by simp [hq], hne⟩
        · exact .inr ⟨by simp [hm], hne⟩

omit [DecidableEq ι] in
theorem IsList.congr (hs : IsList next prev nil h l)
    (hl : ∀ x ∈ l, next' x = next x ∧ prev' x = prev x) : IsList next' prev' nil h l :=
  ⟨hs.seg.congr hl, hs.nodup⟩

omit [DecidableEq ι] in
theorem IsList.head_mem (hs : IsList next prev nil h l) (hh : h ≠ nil) : h ∈ l := by
  cases l with
  | nil => exact absurd hs.seg hh
  | cons x xs => simp [hs.seg.1]

omit [DecidableEq ι] in
theorem IsList.head_eq_nil (hs : IsList next prev nil h l) : h = nil ↔ l = [] := by
  cases l with
  | nil => exact ⟨fun _ => rfl, fun _ => hs.seg⟩
  | cons x xs =>
      have hx : x ≠ nil := hs.seg.2.1
      simp [hs.seg.1, hx]

/-- Pushing `e` in front. -/
theorem IsList.push (hs : IsList next prev nil h l) (he : e ∉ l) (hne : e ≠ nil)
    (hn : ∀ x, next' x = if x = e then h else next x)
    (hp : ∀ x, prev' x = if x = h ∧ h ≠ nil then e else if x = e then nil else prev x) :
    IsList next' prev' nil e (e :: l) := by
  refine ⟨⟨rfl, hne, ?_, ?_⟩, List.nodup_cons.mpr ⟨he, hs.nodup⟩⟩
  · rw [hp, if_neg, if_pos rfl]
    rintro ⟨rfl, hh⟩
    exact he (hs.head_mem hh)
  · rw [hn, if_pos rfl]
    cases l with
    | nil => exact hs.seg
    | cons x xs =>
        obtain ⟨rfl, hx, -, hr⟩ := hs.seg
        have hxs : h ∉ xs := (List.nodup_cons.mp hs.nodup).1
        have hhe : h ≠ e := by
          rintro rfl
          exact he (by simp)
        refine ⟨rfl, hx, by rw [hp, if_pos ⟨rfl, hx⟩], ?_⟩
        rw [hn, if_neg hhe]
        refine hr.congr fun y hy => ?_
        have hye : y ≠ e := by
          rintro rfl
          exact he (by simp [hy])
        have hyh : y ≠ h := by
          rintro rfl
          exact hxs hy
        exact ⟨by rw [hn, if_neg hye], by rw [hp, if_neg (by simp [hyh]), if_neg hye]⟩

theorem Seg.remove (hs : Seg next prev nil p h l) (hl : l.Nodup) (hpl : p ∉ l) (he : e ∈ l)
    (hn : ∀ x, x ≠ e → x ≠ nil → next' x = if x = prev e then next e else next x)
    (hp : ∀ x, x ≠ e → x ≠ nil → prev' x = if x = next e then prev e else prev x) :
    Seg next' prev' nil p (if h = e then next e else h) (l.erase e) := by
  induction l generalizing p h with
  | nil => simp at he
  | cons x xs ih =>
      obtain ⟨rfl, hx, hpx, hr⟩ := hs
      obtain ⟨hxs, hxs'⟩ := List.nodup_cons.mp hl
      by_cases hxe : h = e
      · -- the head goes: its successor inherits the predecessor
        subst hxe
        rw [if_pos rfl, List.erase_cons_head]
        cases xs with
        | nil => exact hr
        | cons y ys =>
            obtain ⟨hy, hyn, hpy, hr'⟩ := hr
            have hyh : y ≠ h := by
              rintro rfl
              exact hxs (by simp)
            have hyp : y ≠ p := by
              rintro rfl
              exact hpl (by simp)
            refine ⟨hy, hyn, ?_, ?_⟩
            · rw [hp y hyh hyn, if_pos hy.symm, hpx]
            · rw [hn y hyh hyn, if_neg (by rw [hpx]; exact hyp)]
              refine hr'.congr fun z hz => ?_
              have hzh : z ≠ h := by
                rintro rfl
                exact hxs (by simp [hz])
              have hzp : z ≠ p := by
                rintro rfl
                exact hpl (by simp [hz])
              have hzy : z ≠ y := by
                rintro rfl
                exact (List.nodup_cons.mp hxs').1 hz
              refine ⟨by rw [hn z hzh (hr'.ne_nil hz), if_neg (by rw [hpx]; exact hzp)], ?_⟩
              rw [hp z hzh (hr'.ne_nil hz), if_neg (by rw [hy]; exact hzy)]
      · have he' : e ∈ xs := by
          rcases List.mem_cons.mp he with rfl | he'
          · exact absurd rfl hxe
          · exact he'
        rw [if_neg hxe, List.erase_cons_tail (by simpa using hxe)]
        have hnx : h ≠ next e := by
          rcases hr.next_mem he' with h0 | hm
          · rw [h0]
            exact hx
          · rintro rfl
            exact hxs hm
        have hlink : next' h = if next h = e then next e else next h := by
          rw [hn h hxe hx]
          rcases hr.prev_mem hxs' he' with ⟨hq, hq'⟩ | ⟨hm, hq'⟩
          · rw [if_pos hq.symm, if_pos hq']
          · rw [if_neg hq', if_neg]
            rintro rfl
            exact hxs hm
        refine ⟨rfl, hx, by rw [hp h hxe hx, if_neg hnx, hpx], ?_⟩
        rw [hlink]
        exact ih hr hxs' hxs he'

/-- Unlinking a member. -/
theorem IsList.remove (hs : IsList next prev nil h l) (he : e ∈ l)
    (hn : ∀ x, x ≠ e → x ≠ nil → next' x = if x = prev e then next e else next x)
    (hp : ∀ x, x ≠ e → x ≠ nil → prev' x = if x = next e then prev e else prev x) :
    IsList next' prev' nil (if prev e = nil then next e else h) (l.erase e) := by
  have hnil : nil ∉ l := fun hm => hs.seg.ne_nil hm rfl
  have hr := hs.seg.remove hs.nodup hnil he hn hp
  refine ⟨?_, hs.nodup.erase e⟩
  rcases hs.seg.prev_mem hs.nodup he with ⟨h0, hh⟩ | ⟨hm, hh⟩
  · rwa [if_pos h0, ← if_pos (c := h = e) (t := next e) (e := h) hh]
  · rw [if_neg (hs.seg.ne_nil hm)]
    rwa [if_neg hh] at hr

/-! ## Families of lists that share the two arrays -/

variable {κ : Type} [DecidableEq κ] {head : κ → ι} {ls : κ → List ι} {k : κ}

structure Family (next prev : ι → ι) (nil : ι) (head : κ → ι) (ls : κ → List ι) : Prop where
  isList : ∀ k, IsList next prev nil (head k) (ls k)
  disjoint : ∀ {k k' x}, x ∈ ls k → x ∈ ls k' → k = k'

omit [DecidableEq ι] [DecidableEq κ] in
theorem Family.congr (hf : Family next prev nil head ls)
    (hl : ∀ k, ∀ x ∈ ls k, next' x = next x ∧ prev' x = prev x) :
    Family next' prev' nil head ls :=
  ⟨fun k => (hf.isList k).congr (hl k), hf.disjoint⟩

omit [DecidableEq ι] [DecidableEq κ] in
theorem Family.ne_nil (hf : Family next prev nil head ls) {x : ι} (hx : x ∈ ls k) : x ≠ nil :=
  (hf.isList k).seg.ne_nil hx

/-- Pushing an index that is on no list. -/
theorem Family.push (hf : Family next prev nil head ls) (he : ∀ k, e ∉ ls k) (hne : e ≠ nil)
    (hn : ∀ x, next' x = if x = e then head k else next x)
    (hp : ∀ x, prev' x =
      if x = head k ∧ head k ≠ nil then e else if x = e then nil else prev x) :
    Family next' prev' nil (Function.update head k e) (Function.update ls k (e :: ls k)) := by
  refine ⟨fun k' => ?_, fun {k₁ k₂ x} h₁ h₂ => ?_⟩
  · by_cases hk : k' = k
    · subst hk
      simpa only [Function.update_self] using (hf.isList k').push (he k') hne hn hp
    · simp only [Function.update_of_ne hk]
      refine (hf.isList k').congr fun x hx => ?_
      have hxe : x ≠ e := by
        rintro rfl
        exact he k' hx
      refine ⟨by rw [hn, if_neg hxe], ?_⟩
      rw [hp, if_neg, if_neg hxe]
      rintro ⟨rfl, hh⟩
      exact hk (hf.disjoint hx ((hf.isList k).head_mem hh))
  · have hmem : ∀ {k'}, x ∈ Function.update ls k (e :: ls k) k' →
        (x = e ∧ k' = k) ∨ x ∈ ls k' := by
      intro k' hx
      by_cases hk : k' = k
      · subst hk
        rw [Function.update_self, List.mem_cons] at hx
        exact hx.imp_left fun h => ⟨h, rfl⟩
      · rw [Function.update_of_ne hk] at hx
        exact .inr hx
    rcases hmem h₁ with ⟨hx₁, hk₁⟩ | hm₁ <;> rcases hmem h₂ with ⟨hx₂, hk₂⟩ | hm₂
    · exact hk₁.trans hk₂.symm
    · exact absurd (hx₁ ▸ hm₂) (he _)
    · exact absurd (hx₂ ▸ hm₁) (he _)
    · exact hf.disjoint hm₁ hm₂

/-- Unlinking a member of one list leaves the others alone. -/
theorem Family.remove (hf : Family next prev nil head ls) (he : e ∈ ls k)
    (hn : ∀ x, x ≠ e → x ≠ nil → next' x = if x = prev e then next e else next x)
    (hp : ∀ x, x ≠ e → x ≠ nil → prev' x = if x = next e then prev e else prev x) :
    Family next' prev' nil
      (Function.update head k (if prev e = nil then next e else head k))
      (Function.update ls k ((ls k).erase e)) := by
  refine ⟨fun k' => ?_, fun {k₁ k₂ x} h₁ h₂ => ?_⟩
  · by_cases hk : k' = k
    · subst hk
      simpa only [Function.update_self] using (hf.isList k').remove he hn hp
    · simp only [Function.update_of_ne hk]
      refine (hf.isList k').congr fun x hx => ?_
      have hxk : x ∉ ls k := fun hm => hk (hf.disjoint hx hm)
      have hxe : x ≠ e := by
        rintro rfl
        exact hxk he
      have hx0 : x ≠ nil := hf.ne_nil hx
      have hnm := (hf.isList k).seg.next_mem he
      have hpm := (hf.isList k).seg.prev_mem (hf.isList k).nodup he
      constructor
      · rw [hn x hxe hx0, if_neg]
        rintro rfl
        rcases hpm with ⟨h0, -⟩ | ⟨hm, -⟩
        · exact hx0 h0
        · exact hxk hm
      · rw [hp x hxe hx0, if_neg]
        rintro rfl
        rcases hnm with h0 | hm
        · exact hx0 h0
        · exact hxk hm
  · have hmem : ∀ {k'}, x ∈ Function.update ls k ((ls k).erase e) k' → x ∈ ls k' := by
      intro k' hx
      by_cases hk : k' = k
      · subst hk
        rw [Function.update_self] at hx
        exact List.mem_of_mem_erase hx
      · rwa [Function.update_of_ne hk] at hx
    exact hf.disjoint (hmem h₁) (hmem h₂)

end LinkedArray
