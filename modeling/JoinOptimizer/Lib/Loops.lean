import Mathlib.Data.List.Forall2

/-! Loops that may fail: folds and maps in `Except ε`, with a rule for a loop whose states are known
in advance and a rule for what every completed loop keeps. -/

namespace JoinOptimizer.Lib

variable {ε α β σ : Type}

theorem bind_eq_ok {x : Except ε α} {f : α → Except ε β} {b : β} :
    (x >>= f) = .ok b ↔ ∃ a, x = .ok a ∧ f a = .ok b := by
  cases x with
  | error e => simp [bind, Except.bind]
  | ok a => simp [bind, Except.bind]

@[simp] theorem ok_bind (a : α) (f : α → Except ε β) : (Except.ok a >>= f) = f a := rfl

@[simp] theorem error_bind (e : ε) (f : α → Except ε β) :
    ((Except.error e : Except ε α) >>= f) = .error e := rfl

@[simp] theorem pure_eq_ok (a : α) : (pure a : Except ε α) = .ok a := rfl

theorem exists_of_isOk {r : Except ε α} (h : r.isOk) : ∃ a, r = .ok a := by
  cases r with
  | error e => cases h
  | ok a => exact ⟨a, rfl⟩

theorem foldlM_cons_eq_ok {f : σ → α → Except ε σ} {s s' : σ} {a : α} {as : List α} :
    (a :: as).foldlM f s = .ok s' ↔ ∃ t, f s a = .ok t ∧ as.foldlM f t = .ok s' := by
  rw [List.foldlM_cons, bind_eq_ok]

theorem forM_eq_ok {f : α → Except ε Unit} {as : List α} :
    as.forM f = .ok () ↔ ∀ a ∈ as, f a = .ok () := by
  induction as with
  | nil => simp
  | cons a as ih =>
    show (f a >>= fun _ => as.forM f) = .ok () ↔ _
    rw [bind_eq_ok, List.forall_mem_cons, ← ih]
    constructor
    · rintro ⟨⟨⟩, ha, has⟩
      exact ⟨ha, has⟩
    · rintro ⟨ha, has⟩
      exact ⟨(), ha, has⟩

/-- A fold whose steps write their elements behind those of the steps before: `Holds w done cur`
says that `w` has `done` behind it and is still at work on `cur`. -/
theorem foldl_writes {Holds : σ → List α → List α → Prop} {call : σ → α → σ}
    (hstep : ∀ w done cur a, Holds w done cur →
      ∃ done' cur', done' ++ cur' = done ++ cur ++ [a] ∧ Holds (call w a) done' cur')
    (as : List α) {w : σ} {done cur : List α} (h : Holds w done cur) :
    ∃ done' cur', done' ++ cur' = done ++ cur ++ as ∧ Holds (as.foldl call w) done' cur' := by
  induction as generalizing w done cur with
  | nil => exact ⟨done, cur, by simp, h⟩
  | cons a as ih =>
    obtain ⟨done', cur', heq, h'⟩ := hstep w done cur a h
    obtain ⟨done'', cur'', heq', h''⟩ := ih h'
    exact ⟨done'', cur'', by rw [heq', heq]; simp, h''⟩

theorem foldlM_append_eq_ok {f : σ → α → Except ε σ} {s s' : σ} {as bs : List α} :
    (as ++ bs).foldlM f s = .ok s' ↔ ∃ t, as.foldlM f s = .ok t ∧ bs.foldlM f t = .ok s' := by
  rw [List.foldlM_append, bind_eq_ok]

/-- A loop over a list whose state before iteration `i` is `S i`. -/
theorem foldlM_trajectory {f : σ → α → Except ε σ} {as : List α} {s s' : σ} (S : Nat → σ)
    (hstart : S 0 = s) (hend : S as.length = s')
    (h : ∀ i (hi : i < as.length), f (S i) as[i] = .ok (S (i + 1))) :
    as.foldlM f s = .ok s' := by
  subst hstart hend
  induction as generalizing S with
  | nil => rfl
  | cons a as ih =>
    rw [List.foldlM_cons, show f (S 0) a = .ok (S 1) from h 0 (by simp), ok_bind]
    exact ih (fun i => S (i + 1)) fun i hi => h (i + 1) (by simpa using hi)

/-- A loop `for (i = 0; i < n; ++i)` whose state before iteration `i` is `S i`. -/
theorem foldlM_range_trajectory {f : σ → Nat → Except ε σ} {n : Nat} {s s' : σ} (S : Nat → σ)
    (hstart : S 0 = s) (hend : S n = s') (h : ∀ i < n, f (S i) i = .ok (S (i + 1))) :
    (List.range n).foldlM f s = .ok s' :=
  foldlM_trajectory S hstart (by simpa using hend) fun i hi => by
    simpa using h i (by simpa using hi)

/-- What each iteration keeps, a completed loop keeps.  The invariant may name the part of the list
already visited. -/
theorem foldlM_invariant {f : σ → α → Except ε σ} {P : List α → σ → Prop} {as : List α} {s s' : σ}
    (hrun : as.foldlM f s = .ok s') (hstart : P [] s)
    (hstep : ∀ pre a t t', a ∈ as → P pre t → f t a = .ok t' → P (pre ++ [a]) t') : P as s' := by
  have key : ∀ (bs pre : List α) (t : σ), (∀ b ∈ bs, b ∈ as) → P pre t →
      bs.foldlM f t = .ok s' → P (pre ++ bs) s' := by
    intro bs
    induction bs with
    | nil =>
      intro pre t _ hP hr
      cases hr
      simpa using hP
    | cons b bs ih =>
      intro pre t hmem hP hr
      obtain ⟨u, hu, hrest⟩ := foldlM_cons_eq_ok.mp hr
      have hb := hstep pre b t u (hmem b (by simp)) hP hu
      simpa using ih (pre ++ [b]) u (fun c hc => hmem c (by simp [hc])) hb hrest
  simpa using key as [] s (fun _ h => h) hstart hrun

/-- A loop over the images of the states of another runs as that one does, as long as the other's
states satisfy an invariant. -/
theorem foldlM_view {τ : Type} {f : σ → α → Except ε σ} {g : τ → α → Except ε τ} {view : σ → τ}
    {Inv : σ → Prop} (hstep : ∀ s a, Inv s → g (view s) a = (f s a).map view)
    (hkeep : ∀ s a s', Inv s → f s a = .ok s' → Inv s') (as : List α) {s : σ} (hs : Inv s) :
    as.foldlM g (view s) = (as.foldlM f s).map view := by
  induction as generalizing s with
  | nil => rfl
  | cons a as ih =>
    rw [List.foldlM_cons, List.foldlM_cons, hstep s a hs]
    cases hrun : f s a with
    | error e => rfl
    | ok t => exact ih (hkeep s a t hs hrun)

/-- A loop completes when each iteration does from the states that the invariant allows; the
invariant may name the part of the list already visited. -/
theorem foldlM_total_prefix {f : σ → α → Except ε σ} {P : List α → σ → Prop} (as : List α) (s : σ)
    (hstart : P [] s) (hstep : ∀ pre a post t, as = pre ++ a :: post → P pre t →
      ∃ t', f t a = .ok t' ∧ P (pre ++ [a]) t') :
    ∃ s', as.foldlM f s = .ok s' ∧ P as s' := by
  have key : ∀ (bs pre : List α) (t : σ), as = pre ++ bs → P pre t →
      ∃ s', bs.foldlM f t = .ok s' ∧ P (pre ++ bs) s' := by
    intro bs
    induction bs with
    | nil => exact fun pre t _ hP => ⟨t, rfl, by simpa using hP⟩
    | cons b bs ih =>
      intro pre t hsplit hP
      obtain ⟨u, hu, hPu⟩ := hstep pre b bs t hsplit hP
      obtain ⟨s', hs', hPs'⟩ := ih (pre ++ [b]) u (by simpa using hsplit) hPu
      refine ⟨s', foldlM_cons_eq_ok.mpr ⟨u, hu, hs'⟩, ?_⟩
      simpa using hPs'
  simpa using key as [] s rfl hstart

/-- A loop each of whose steps succeeds or fails with one error. -/
theorem foldlM_total_or {f : σ → α → Except ε σ} {e : ε} {P : List α → σ → Prop} (as : List α) (s : σ)
    (hstart : P [] s) (hstep : ∀ pre a post t, as = pre ++ a :: post → P pre t →
      (∃ t', f t a = .ok t' ∧ P (pre ++ [a]) t') ∨ f t a = .error e) :
    (∃ s', as.foldlM f s = .ok s' ∧ P as s') ∨ as.foldlM f s = .error e := by
  have key : ∀ (bs pre : List α) (t : σ), as = pre ++ bs → P pre t →
      (∃ s', bs.foldlM f t = .ok s' ∧ P (pre ++ bs) s') ∨ bs.foldlM f t = .error e := by
    intro bs
    induction bs with
    | nil => exact fun pre t _ hP => .inl ⟨t, rfl, by simpa using hP⟩
    | cons b bs ih =>
      intro pre t hsplit hP
      rcases hstep pre b bs t hsplit hP with ⟨t', ht', hP'⟩ | herror
      · rcases ih (pre ++ [b]) t' (by simp [hsplit]) hP' with ⟨s', hs', hall⟩ | herror
        · exact .inl ⟨s', by rw [List.foldlM_cons, ht']; exact hs', by simpa using hall⟩
        · exact .inr (by rw [List.foldlM_cons, ht']; exact herror)
      · exact .inr (by rw [List.foldlM_cons, herror]; rfl)
  exact key as [] s rfl hstart

theorem foldlM_total {f : σ → α → Except ε σ} {P : List α → σ → Prop} (as : List α) (s : σ)
    (hstart : P [] s)
    (hstep : ∀ pre a t, a ∈ as → P pre t → ∃ t', f t a = .ok t' ∧ P (pre ++ [a]) t') :
    ∃ s', as.foldlM f s = .ok s' ∧ P as s' :=
  foldlM_total_prefix as s hstart fun pre a post t hsplit hP =>
    hstep pre a t (by simp [hsplit]) hP

/-- A loop whose state is made of the values that its iterations compute, each from its own element,
is a map and one last step. -/
theorem foldlM_eq_mapM {f : σ → α → Except ε σ} {g : α → Except ε β} {as : List α} {s : σ}
    (S : List β → σ) (hstart : S [] = s)
    (h : ∀ vs (hi : vs.length < as.length),
      f (S vs) as[vs.length] = (do .ok (S (vs ++ [← g as[vs.length]])))) :
    as.foldlM f s = (do .ok (S (← as.mapM g))) := by
  subst hstart
  induction as generalizing S with
  | nil => rfl
  | cons a as ih =>
    have hfirst : f (S []) a = (do .ok (S [← g a])) := h [] (by simp)
    rw [List.foldlM_cons, List.mapM_cons, hfirst]
    cases hg : g a with
    | error e => rfl
    | ok v =>
      simp only [ok_bind]
      rw [ih (fun vs => S (v :: vs)) fun vs hi => h (v :: vs) (by simpa using hi)]
      cases as.mapM g with
      | error e => rfl
      | ok vs => rfl

theorem foldlM_flatMap {f : σ → β → Except ε σ} {g : α → List β} {as : List α} {s : σ} :
    (as.flatMap g).foldlM f s = as.foldlM (fun s a => (g a).foldlM f s) s := by
  induction as generalizing s with
  | nil => rfl
  | cons a as ih =>
    rw [List.flatMap_cons, List.foldlM_append, List.foldlM_cons]
    exact congrArg _ (funext fun t => ih)

theorem mapM_eq_ok_iff {f : α → Except ε β} {as : List α} {bs : List β} :
    as.mapM f = .ok bs ↔ List.Forall₂ (fun a b => f a = .ok b) as bs := by
  induction as generalizing bs with
  | nil => cases bs <;> simp [List.mapM_nil]
  | cons a as ih =>
    rw [List.mapM_cons]
    cases bs with
    | nil => simp [bind_eq_ok]
    | cons b bs => simp [bind_eq_ok, ih]

/-- A loop that computes something of each element first. -/
theorem foldlM_mapM {f : σ → β → Except ε σ} {g : α → Except ε β} {as : List α} {bs : List β}
    (h : as.mapM g = .ok bs) (s : σ) :
    as.foldlM (fun s a => do f s (← g a)) s = bs.foldlM f s := by
  rw [mapM_eq_ok_iff] at h
  induction h generalizing s with
  | nil => rfl
  | @cons a b as bs hab _ ih =>
    rw [List.foldlM_cons, List.foldlM_cons, hab, ok_bind]
    exact congrArg _ (funext fun t => ih t)

/-- A map that succeeds on every element succeeds on the list. -/
theorem mapM_ok_of_forall {f : α → Except ε β} {g : α → β} {as : List α}
    (h : ∀ a ∈ as, f a = .ok (g a)) : as.mapM f = .ok (as.map g) := by
  rw [mapM_eq_ok_iff, List.forall₂_map_right_iff, List.forall₂_same]
  exact h

theorem mapM_ok_of_exists {f : α → Except ε β} (as : List α) (h : ∀ a ∈ as, ∃ b, f a = .ok b) :
    ∃ bs, as.mapM f = .ok bs := by
  induction as with
  | nil => exact ⟨[], rfl⟩
  | cons a as ih =>
    obtain ⟨b, hb⟩ := h a (by simp)
    obtain ⟨bs, hbs⟩ := ih fun a' ha' => h a' (by simp [ha'])
    exact ⟨b :: bs, by rw [List.mapM_cons, hb, hbs]; rfl⟩

/-- A map that succeeds on every element, with a relation between the elements and their values. -/
theorem mapM_ok_forall₂ {f : α → Except ε β} {R : α → β → Prop} {as : List α}
    (h : ∀ a ∈ as, ∃ b, f a = .ok b ∧ R a b) : ∃ bs, as.mapM f = .ok bs ∧ List.Forall₂ R as bs := by
  induction as with
  | nil => exact ⟨[], rfl, .nil⟩
  | cons a as ih =>
    obtain ⟨b, hb, hR⟩ := h a (by simp)
    obtain ⟨bs, hbs, hall⟩ := ih fun a' ha' => h a' (by simp [ha'])
    exact ⟨b :: bs, by rw [List.mapM_cons, hb, hbs]; rfl, .cons hR hall⟩

theorem mapM_comp_eq_ok {γ : Type} {f : α → Except ε β} {g : β → γ} {as : List α} {cs : List γ}
    (h : (as.mapM fun a => do .ok (g (← f a))) = .ok cs) : ∃ bs, as.mapM f = .ok bs ∧ cs = bs.map g := by
  rw [mapM_eq_ok_iff] at h
  induction h with
  | nil => exact ⟨[], rfl, rfl⟩
  | @cons a c as cs hac _ ih =>
    obtain ⟨b, hb, hc⟩ := bind_eq_ok.mp hac
    obtain ⟨bs, hbs, rfl⟩ := ih
    cases hc
    exact ⟨b :: bs, by rw [List.mapM_cons, hb, hbs]; rfl, rfl⟩

/-- A map that fails does so on one of the elements. -/
theorem mapM_eq_error {f : α → Except ε β} {as : List α} {e : ε} (h : as.mapM f = .error e) :
    ∃ a ∈ as, f a = .error e := by
  induction as with
  | nil => cases h
  | cons a as ih =>
    rw [List.mapM_cons] at h
    cases ha : f a with
    | error e' =>
      rw [ha] at h
      cases h
      exact ⟨a, by simp, ha⟩
    | ok b =>
      rw [ha, ok_bind] at h
      cases has : as.mapM f with
      | error e' =>
        rw [has] at h
        cases h
        obtain ⟨a', ha', he⟩ := ih has
        exact ⟨a', by simp [ha'], he⟩
      | ok bs =>
        rw [has] at h
        cases h

theorem mapM_ok_length {f : α → Except ε β} {as : List α} {bs : List β}
    (h : as.mapM f = .ok bs) : bs.length = as.length :=
  (mapM_eq_ok_iff.mp h).length_eq.symm

theorem mapM_ok_getElem {f : α → Except ε β} {as : List α} {bs : List β}
    (h : as.mapM f = .ok bs) {i : Nat} (ha : i < as.length) (hb : i < bs.length) :
    f as[i] = .ok bs[i] :=
  List.Forall₂.get (mapM_eq_ok_iff.mp h) ha hb

theorem mapM_ok_getElem? {f : α → Except ε β} {as : List α} {bs : List β}
    (h : as.mapM f = .ok bs) {i : Nat} {a : α} (ha : as[i]? = some a) :
    ∃ b, bs[i]? = some b ∧ f a = .ok b := by
  obtain ⟨hi, rfl⟩ := List.getElem?_eq_some_iff.mp ha
  have hi' : i < bs.length := by rw [mapM_ok_length h]; exact hi
  exact ⟨bs[i], List.getElem?_eq_getElem hi', mapM_ok_getElem h hi hi'⟩

theorem mapM_ok_mem {f : α → Except ε β} {as : List α} {bs : List β} (h : as.mapM f = .ok bs) {b : β}
    (hb : b ∈ bs) : ∃ a ∈ as, f a = .ok b := by
  obtain ⟨i, hi, rfl⟩ := List.getElem_of_mem hb
  have hi' : i < as.length := by rw [← mapM_ok_length h]; exact hi
  exact ⟨as[i], List.getElem_mem hi', mapM_ok_getElem h hi' hi⟩

theorem mapM_ok_comp {γ : Type} {f : α → Except ε β} {as : List α} {bs : List β}
    (h : as.mapM f = .ok bs) (g : β → γ) : (as.mapM fun a => do .ok (g (← f a))) = .ok (bs.map g) := by
  rw [mapM_eq_ok_iff] at h ⊢
  rw [List.forall₂_map_right_iff]
  refine h.imp fun a b hab => ?_
  rw [hab, ok_bind]

/-- A map that succeeds on every element, up to a function of its values. -/
theorem mapM_ok_map {γ : Type} {f : α → Except ε β} {g : β → γ} {k : α → γ} (as : List α)
    (h : ∀ a ∈ as, ∃ b, f a = .ok b ∧ g b = k a) : ∃ bs, as.mapM f = .ok bs ∧ bs.map g = as.map k := by
  induction as with
  | nil => exact ⟨[], rfl, rfl⟩
  | cons a as ih =>
    obtain ⟨b, hb, hgb⟩ := h a (by simp)
    obtain ⟨bs, hbs, hmap⟩ := ih fun a' ha' => h a' (by simp [ha'])
    refine ⟨b :: bs, by rw [List.mapM_cons, hb, hbs]; rfl, ?_⟩
    rw [List.map_cons, List.map_cons, hgb, hmap]

end JoinOptimizer.Lib
