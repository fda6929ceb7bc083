import Mathlib.Tactic

/-!
# Linearization scripts over a log of mutations

A shared object changes only through mutations, which are recorded in one log in
the order in which they took effect; an instant is a prefix of the log. `Lin` says
that a log explains what one thread did to the object: the thread's own mutations
are the `put` items of its script, in order, each taking effect in a state that
meets its condition, and every observation of a `sees` item held at some instant
between the neighbouring `put`s. The mutations of the other threads may stand
anywhere.

Scripts of consecutive pieces of a program concatenate (`Lin.append`). A thread
that has the object to itself sees exactly its own writes (`Lin.seq`), and the
scripts of all threads over one log tell where every mutation comes from
(`Lin.put_of_split`).
-/

namespace MutationLog

/-- One entry of a script: the condition on a mutation and the state it meets, or a set of
observations. -/
inductive Item (D M : Type) : Type
  | put : (M → D → Prop) → Item D M
  | sees : List (D → Prop) → Item D M

section

variable {D M Tid : Type} (who : M → Tid) (app : M → D → D)

/-- The object after the mutations of a log. -/
def applyAll (d : D) (log : List M) : D := log.foldl (fun d m => app m d) d

/-- No mutation of `log` is by thread `w`. -/
def Foreign (w : Tid) (log : List M) : Prop := ∀ m ∈ log, who m ≠ w

def Lin (w : Tid) : D → List (Item D M) → List M → Prop
  | _, [], log => Foreign who w log
  | d, .put c :: is, log => ∃ pre m post, log = pre ++ m :: post ∧ Foreign who w pre ∧
      who m = w ∧ c m (applyAll app d pre) ∧ Lin w (app m (applyAll app d pre)) is post
  | d, .sees l :: is, log => ∃ pre post, log = pre ++ post ∧ Foreign who w pre ∧
      (∀ P ∈ l, ∃ pre', pre' <+: pre ∧ P (applyAll app d pre')) ∧
      Lin w (applyAll app d pre) is post

/-- The same script run by a thread that has the object to itself. -/
def Seq (w : Tid) : D → List (Item D M) → D → Prop
  | d, [], d' => d' = d
  | d, .put c :: is, d' => ∃ m, who m = w ∧ c m d ∧ Seq w (app m d) is d'
  | d, .sees l :: is, d' => (∀ P ∈ l, P d) ∧ Seq w d is d'

end

variable {D M Tid : Type} {who : M → Tid} {app : M → D → D} {w : Tid} {d d' : D}
  {is is' : List (Item D M)} {log log' : List M}

@[simp] theorem applyAll_nil (app : M → D → D) (d : D) : applyAll app d [] = d := rfl

@[simp] theorem applyAll_cons (app : M → D → D) (d : D) (m : M) (log : List M) :
    applyAll app d (m :: log) = applyAll app (app m d) log := rfl

@[simp] theorem applyAll_append (app : M → D → D) (d : D) (log log' : List M) :
    applyAll app d (log ++ log') = applyAll app (applyAll app d log) log' :=
  List.foldl_append

theorem Foreign.nil : Foreign who w [] := by simp [Foreign]

theorem Foreign.append (h : Foreign who w log) (h' : Foreign who w log') :
    Foreign who w (log ++ log') := by
  intro m hm
  rcases List.mem_append.mp hm with hm | hm
  · exact h m hm
  · exact h' m hm

theorem Foreign.of_prefix (h : Foreign who w log') (hp : log <+: log') : Foreign who w log :=
  fun m hm => h m (hp.subset hm)

/-- Mutations of others in front of a script. -/
theorem Lin.foreign_left (hf : Foreign who w log) (h : Lin who app w (applyAll app d log) is log') :
    Lin who app w d is (log ++ log') := by
  cases is with
  | nil => exact hf.append h
  | cons i is =>
      cases i with
      | put c =>
          obtain ⟨pre, m, post, rfl, hpre, hm, hc, hr⟩ := h
          rw [← applyAll_append] at hc hr
          exact ⟨log ++ pre, m, post, by simp, hf.append hpre, hm, hc, hr⟩
      | sees l =>
          obtain ⟨pre, post, rfl, hpre, hl, hr⟩ := h
          rw [← applyAll_append] at hr
          refine ⟨log ++ pre, post, by simp, hf.append hpre, fun P hP => ?_, hr⟩
          obtain ⟨pre', hpp, hPd⟩ := hl P hP
          exact ⟨log ++ pre', (List.prefix_append_right_inj log).mpr hpp, by rwa [applyAll_append]⟩

/-- **Scripts concatenate.** -/
theorem Lin.append (h : Lin who app w d is log)
    (h' : Lin who app w (applyAll app d log) is' log') :
    Lin who app w d (is ++ is') (log ++ log') := by
  induction is generalizing d log with
  | nil => exact Lin.foreign_left h h'
  | cons i is ih =>
      cases i with
      | put c =>
          obtain ⟨pre, m, post, rfl, hpre, hm, hc, hr⟩ := h
          refine ⟨pre, m, post ++ log', by simp, hpre, hm, hc, ih hr ?_⟩
          simpa using h'
      | sees l =>
          obtain ⟨pre, post, rfl, hpre, hl, hr⟩ := h
          refine ⟨pre, post ++ log', by simp, hpre, hl, ih hr ?_⟩
          simpa using h'

theorem Lin.nil (d : D) : Lin who app w d [] [] := Foreign.nil

theorem Lin.foreign (h : Lin who app w d is log) (hf : Foreign who w log') :
    Lin who app w d is (log ++ log') := by
  have := h.append (show Lin who app w (applyAll app d log) [] log' from hf)
  rwa [List.append_nil] at this

theorem Lin.put {c : M → D → Prop} {m : M} (hm : who m = w) (hc : c m d) :
    Lin who app w d [.put c] [m] :=
  ⟨[], m, [], rfl, Foreign.nil, hm, hc, Foreign.nil⟩

theorem Lin.sees {l : List (D → Prop)} (hf : Foreign who w log)
    (hl : ∀ P ∈ l, ∃ pre, pre <+: log ∧ P (applyAll app d pre)) :
    Lin who app w d [.sees l] log :=
  ⟨log, [], by simp, hf, hl, Foreign.nil⟩

/-- Two neighbouring sets of observations are one. -/
theorem Lin.sees_merge {l l' : List (D → Prop)}
    (h : Lin who app w d (.sees l :: .sees l' :: is) log) :
    Lin who app w d (.sees (l ++ l') :: is) log := by
  obtain ⟨pre, post, rfl, hpre, hl, pre', post', rfl, hpre', hl', hr⟩ := h
  refine ⟨pre ++ pre', post', by simp, hpre.append hpre', fun P hP => ?_, by simpa using hr⟩
  rcases List.mem_append.mp hP with hP | hP
  · obtain ⟨p, hp, hPd⟩ := hl P hP
    exact ⟨p, hp.trans (List.prefix_append _ _), hPd⟩
  · obtain ⟨p, hp, hPd⟩ := hl' P hP
    exact ⟨pre ++ p, (List.prefix_append_right_inj pre).mpr hp, by rwa [applyAll_append]⟩

/-- Observations may be dropped or weakened. -/
theorem Lin.sees_mono {l l' : List (D → Prop)} (h : Lin who app w d (.sees l :: is) log)
    (hl : ∀ P' ∈ l', ∃ P ∈ l, ∀ d, P d → P' d) : Lin who app w d (.sees l' :: is) log := by
  obtain ⟨pre, post, rfl, hpre, hs, hr⟩ := h
  refine ⟨pre, post, rfl, hpre, fun P' hP' => ?_, hr⟩
  obtain ⟨P, hP, himp⟩ := hl P' hP'
  obtain ⟨p, hp, hPd⟩ := hs P hP
  exact ⟨p, hp, himp _ hPd⟩

/-- An empty set of observations says nothing. -/
theorem Lin.sees_nil (h : Lin who app w d (.sees [] :: is) log) : Lin who app w d is log := by
  obtain ⟨pre, post, rfl, hpre, -, hr⟩ := h
  exact Lin.foreign_left hpre hr

theorem Lin.mem_put {c : M → D → Prop} (h : Lin who app w d is log) (hc : .put c ∈ is) :
    ∃ pre m post, log = pre ++ m :: post ∧ who m = w ∧ c m (applyAll app d pre) := by
  induction is generalizing d log with
  | nil => simp at hc
  | cons i is ih =>
      cases i with
      | put c' =>
          obtain ⟨pre, m, post, rfl, -, hm, hcm, hr⟩ := h
          rcases List.mem_cons.mp hc with heq | hc
          · cases heq
            exact ⟨pre, m, post, rfl, hm, hcm⟩
          · obtain ⟨pre', m', post', rfl, hm', hc'⟩ := ih hr hc
            exact ⟨pre ++ m :: pre', m', post', by simp, hm', by simpa using hc'⟩
      | sees l =>
          obtain ⟨pre, post, rfl, -, -, hr⟩ := h
          rcases List.mem_cons.mp hc with heq | hc
          · cases heq
          · obtain ⟨pre', m', post', rfl, hm', hc'⟩ := ih hr hc
            exact ⟨pre ++ pre', m', post', by simp, hm', by simpa using hc'⟩

theorem Lin.mem_sees {l : List (D → Prop)} {P : D → Prop} (h : Lin who app w d is log)
    (hl : .sees l ∈ is) (hP : P ∈ l) : ∃ pre, pre <+: log ∧ P (applyAll app d pre) := by
  induction is generalizing d log with
  | nil => simp at hl
  | cons i is ih =>
      cases i with
      | put c =>
          obtain ⟨pre, m, post, rfl, -, -, -, hr⟩ := h
          rcases List.mem_cons.mp hl with heq | hl
          · cases heq
          · obtain ⟨p, ⟨q, rfl⟩, hPd⟩ := ih hr hl
            exact ⟨pre ++ m :: p, ⟨q, by simp⟩, by simpa using hPd⟩
      | sees l' =>
          obtain ⟨pre, post, rfl, -, hs, hr⟩ := h
          rcases List.mem_cons.mp hl with heq | hl
          · cases heq
            obtain ⟨p, hp, hPd⟩ := hs P hP
            exact ⟨p, hp.trans (List.prefix_append _ _), hPd⟩
          · obtain ⟨p, ⟨q, rfl⟩, hPd⟩ := ih hr hl
            exact ⟨pre ++ p, ⟨q, by simp⟩, by simpa using hPd⟩

/-- **Alone with the object**, a thread's script runs sequentially. -/
theorem Lin.seq (h : Lin who app w d is log) (hown : ∀ m ∈ log, who m = w) :
    Seq who app w d is (applyAll app d log) := by
  -- a stretch with no own mutation is empty when every mutation is own
  have hempty : ∀ {l : List M}, Foreign who w l → (∀ m ∈ l, who m = w) → l = [] := by
    intro l hf ho
    cases l with
    | nil => rfl
    | cons m l => exact absurd (ho m (by simp)) (hf m (by simp))
  induction is generalizing d log with
  | nil =>
      rw [hempty h hown]
      rfl
  | cons i is ih =>
      cases i with
      | put c =>
          obtain ⟨pre, m, post, rfl, hpre, hm, hc, hr⟩ := h
          have hp := hempty hpre fun x hx => hown x (by simp [hx])
          subst hp
          exact ⟨m, hm, hc, ih hr fun x hx => hown x (by simp [hx])⟩
      | sees l =>
          obtain ⟨pre, post, rfl, hpre, hl, hr⟩ := h
          have hp := hempty hpre fun x hx => hown x (by simp [hx])
          subst hp
          refine ⟨fun P hP => ?_, ih hr fun x hx => hown x (by simpa using hx)⟩
          obtain ⟨p, hp, hPd⟩ := hl P hP
          rw [List.prefix_nil.mp hp] at hPd
          exact hPd

/-- Running alone, a concatenated script runs its parts one after the other. -/
theorem Seq.append_iff {d'' : D} : Seq who app w d (is ++ is') d'' ↔
    ∃ d', Seq who app w d is d' ∧ Seq who app w d' is' d'' := by
  induction is generalizing d with
  | nil => exact ⟨fun h => ⟨d, rfl, h⟩, fun ⟨d', h, h'⟩ => by rwa [← h]⟩
  | cons i is ih =>
      cases i with
      | put c =>
          constructor
          · rintro ⟨m, hm, hc, h⟩
            obtain ⟨d', h1, h2⟩ := ih.mp h
            exact ⟨d', ⟨m, hm, hc, h1⟩, h2⟩
          · rintro ⟨d', ⟨m, hm, hc, h1⟩, h2⟩
            exact ⟨m, hm, hc, ih.mpr ⟨d', h1, h2⟩⟩
      | sees l =>
          constructor
          · rintro ⟨hl, h⟩
            obtain ⟨d', h1, h2⟩ := ih.mp h
            exact ⟨d', ⟨hl, h1⟩, h2⟩
          · rintro ⟨d', ⟨hl, h1⟩, h2⟩
            exact ⟨hl, ih.mpr ⟨d', h1, h2⟩⟩

/-- An own mutation stands after any stretch of foreign ones. -/
theorem Foreign.split {pre pre' post rest : List M} {m : M} (hf : Foreign who w pre')
    (hm : who m = w) (h : pre ++ m :: post = pre' ++ rest) :
    ∃ mid, pre = pre' ++ mid ∧ rest = mid ++ m :: post := by
  rcases List.append_eq_append_iff.mp h with ⟨l, h1, h2⟩ | ⟨l, h1, h2⟩
  · cases l with
    | nil => exact ⟨[], by simpa using h1.symm, by simpa using h2.symm⟩
    | cons m' l =>
        rw [List.cons_append, List.cons.injEq] at h2
        exact absurd hm (hf m (by simp [h1, h2.1]))
  · exact ⟨l, h1, h2⟩

/-- **Every own mutation comes from a `put` of the script.** -/
theorem Lin.put_of_split {pre post : List M} {m : M}
    (h : Lin who app w d is (pre ++ m :: post)) (hm : who m = w) :
    ∃ c, .put c ∈ is ∧ c m (applyAll app d pre) := by
  induction is generalizing d pre with
  | nil => exact absurd hm (h m (by simp))
  | cons i is ih =>
      cases i with
      | put c =>
          obtain ⟨pre', m', post', heq, hf, -, hc, hr⟩ := h
          obtain ⟨mid, rfl, hmid⟩ := hf.split hm heq
          cases mid with
          | nil =>
              rw [List.nil_append, List.cons.injEq] at hmid
              rw [List.append_nil, ← hmid.1]
              exact ⟨c, List.mem_cons_self, hc⟩
          | cons m'' mid =>
              rw [List.cons_append, List.cons.injEq] at hmid
              rw [hmid.2] at hr
              obtain ⟨c', hc', hcm⟩ := ih hr
              rw [← hmid.1]
              exact ⟨c', List.mem_cons_of_mem _ hc', by simpa using hcm⟩
      | sees l =>
          obtain ⟨pre', post', heq, hf, -, hr⟩ := h
          obtain ⟨mid, rfl, rfl⟩ := hf.split hm heq
          obtain ⟨c', hc', hcm⟩ := ih hr
          exact ⟨c', List.mem_cons_of_mem _ hc', by simpa using hcm⟩

/-- **A thread's own mutations** are the `put` items of its script, one by one. -/
theorem Lin.own [DecidableEq Tid] {cs : List (M → D → Prop)}
    (h : Lin who app w d (cs.map .put) log) :
    List.Forall₂ (fun c m => ∃ d, c m d) cs (log.filter fun m => who m = w) := by
  have hforeign : ∀ {l : List M}, Foreign who w l → l.filter (fun m => who m = w) = [] := by
    intro l hf
    rw [List.filter_eq_nil_iff]
    exact fun m hm hw => hf m hm (of_decide_eq_true hw)
  induction cs generalizing d log with
  | nil =>
      rw [hforeign h]
      exact .nil
  | cons c cs ih =>
      obtain ⟨pre, m, post, rfl, hpre, hm, hc, hr⟩ := h
      rw [List.filter_append, hforeign hpre, List.nil_append, List.filter_cons,
        if_pos (decide_eq_true hm)]
      exact .cons ⟨_, hc⟩ (ih hr)

end MutationLog
