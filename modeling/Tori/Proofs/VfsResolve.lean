import Tori.Spec.Vfs

/-! Path resolution is a walk over the components of the path: the pointer scan of
`split_and_resolve` meets the non-empty pieces between slashes, in order, and nothing else of the
path matters but whether it starts with a slash. -/

namespace Tori.Vfs

variable {σ V : Type} [DecidableEq V]

/-- The non-empty `'/'`-separated components of a path. -/
def components (p : Str) : List Str := (p.splitOn slash).filter fun c => c ≠ []

/-- One component: the two checks, the lookup, the mount. -/
def stepInto (ops : VnodeOps σ V) (t : Table V) (current : Option V) (c : Str) (s : σ) :
    Except Err (Option V) × σ :=
  if c.length > 255 then (.error .eInvalid, s)
  else
    match current with
    | none => (.error .fault, s)
    | some v =>
      if ops.type v s ≠ .directory then (.error .eNotDir, s)
      else
        match ops.lookup v c s with
        | (.error e, s) => (.error e, s)
        | (.ok next, s) => (.ok (some (resolveMount t next)), s)

/-- `stepInto` for each component in turn, until the first failure. -/
def walk (ops : VnodeOps σ V) (t : Table V) : List Str → Option V → σ → Except Err (Option V) × σ
  | [], current, s => (.ok current, s)
  | c :: cs, current, s =>
    match stepInto ops t current c s with
    | (.error e, s) => (.error e, s)
    | (.ok next, s) => walk ops t cs next s

/-- Where resolution starts: absolute paths at the root vnode. -/
def walkFrom (ops : VnodeOps σ V) (t : Table V) (base : Option V) (absolute : Bool) (cs : List Str)
    (s : σ) : Except Err (Option V) × σ :=
  if !t.initialized then (.error .eInvalid, s)
  else if absolute then
    match t.rootVnode with
    | none => (.error .eNotFound, s)
    | some root => walk ops t cs (some root) s
  else walk ops t cs base s

/-! ### Components -/

@[simp] theorem components_nil : components [] = [] := rfl

theorem components_append (p q : Str) : components (p ++ slash :: q) = components p ++ components q := by
  rw [components, List.splitOn_append_cons_self, List.filter_append]
  rfl

theorem components_slash (p : Str) : components (slash :: p) = components p := by
  simpa using components_append [] p

theorem components_skipSlashes (p : Str) : components (skipSlashes p) = components p := by
  induction p with
  | nil => rfl
  | cons c p ih =>
    rw [skipSlashes, List.dropWhile_cons]
    split
    · rename_i hc
      rw [beq_iff_eq] at hc
      subst hc
      rw [components_slash]
      exact ih
    · rfl

theorem components_single {w : Str} (hw : ∀ c ∈ w, c ≠ slash) (hne : w ≠ []) : components w = [w] := by
  have h : w.splitOn slash = [w] :=
    List.splitOnP_eq_singleton fun c hc => beq_eq_false_iff_ne.mpr (hw c hc)
  simp [components, h, hne]

theorem component_no_slash (p : Str) : ∀ c ∈ component p, c ≠ slash := by
  intro c hc
  simpa using List.all_eq_true.mp List.all_takeWhile c hc

theorem components_cons {c : UInt8} (cs : Str) (hc : c ≠ slash) :
    components (c :: cs) = component (c :: cs) :: components (afterComponent (c :: cs)) := by
  have hne : component (c :: cs) ≠ [] := by
    rw [component, List.takeWhile_cons_of_pos (by simpa using hc)]
    exact List.cons_ne_nil _ _
  have hsplit : component (c :: cs) ++ afterComponent (c :: cs) = c :: cs :=
    List.takeWhile_append_dropWhile
  have hw := components_single (component_no_slash (c :: cs)) hne
  cases hr : afterComponent (c :: cs) with
  | nil =>
    rw [hr, List.append_nil] at hsplit
    rw [components_nil, ← hw, hsplit]
  | cons d r =>
    have hd : d = slash := by
      have := List.head?_dropWhile_not (· != slash) (c :: cs)
      rw [← afterComponent, hr] at this
      simpa using this
    subst hd
    calc components (c :: cs) = components (component (c :: cs) ++ slash :: r) := by rw [← hr, hsplit]
      _ = component (c :: cs) :: components (slash :: r) := by
        rw [components_append, hw, components_slash, List.singleton_append]

/-! ### The walk -/

theorem splitAndResolve_eq_walk (ops : VnodeOps σ V) (t : Table V) (current : Option V) (p : Str) (s : σ) :
    splitAndResolve ops t current p s = walk ops t (components p) current s := by
  induction hn : p.length using Nat.strong_induction_on generalizing p current s with
  | _ n ih =>
    rw [← components_skipSlashes, splitAndResolve]
    split
    · rename_i h
      rw [h, components_nil, walk]
    · rename_i c cs h
      have hlt := afterComponent_length_lt h
      rw [h, components_cons cs (skipSlashes_head h), walk]
      unfold stepInto
      by_cases hlen : (component (c :: cs)).length > 255
      · rw [if_pos hlen, if_pos hlen]
      · rw [if_neg hlen, if_neg hlen]
        cases current with
        | none => rfl
        | some v =>
          dsimp only
          by_cases hdir : ops.type v s ≠ .directory
          · rw [if_pos hdir, if_pos hdir]
          · rw [if_neg hdir, if_neg hdir]
            rcases ops.lookup v (component (c :: cs)) s with ⟨_ | next, s1⟩
            · rfl
            · exact ih _ (hn ▸ hlt) _ _ _ rfl

theorem resolve_eq_walkFrom (ops : VnodeOps σ V) (t : Table V) (base : Option V) (p : Str) (s : σ) :
    resolve ops t base p s = walkFrom ops t base (p.head? = some slash) (components p) s := by
  rw [resolve, walkFrom]
  cases t.initialized with
  | false => rfl
  | true =>
    by_cases hp : p = []
    · subst hp
      rfl
    · by_cases habs : p.head? = some slash
      · simp only [Bool.not_true, Bool.false_eq_true, ↓reduceIte, hp, habs, decide_true]
        cases t.rootVnode with
        | none => rfl
        | some root =>
          dsimp only
          by_cases hall : skipSlashes p = []
          · rw [if_pos hall, ← components_skipSlashes, hall, components_nil, walk]
          · rw [if_neg hall, splitAndResolve_eq_walk, components_skipSlashes]
      · simp [hp, habs, splitAndResolve_eq_walk]

theorem walk_append (ops : VnodeOps σ V) (t : Table V) (cs ds : List Str) (current : Option V) (s : σ) :
    walk ops t (cs ++ ds) current s =
      match walk ops t cs current s with
      | (.error e, s) => (.error e, s)
      | (.ok v, s) => walk ops t ds v s := by
  induction cs generalizing current s with
  | nil => rfl
  | cons c cs ih =>
    rw [List.cons_append, walk, walk]
    rcases stepInto ops t current c s with ⟨_ | next, s1⟩
    · rfl
    · exact ih next s1

/-- Resolution is the walk over the path's components, and so it composes along `'/'`. -/
theorem resolve_is_fold (ops : VnodeOps σ V) (t : Table V) (base : Option V) (p : Str) (s : σ) :
    resolve ops t base p s = walkFrom ops t base (p.head? = some slash) (components p) s ∧
      (p ≠ [] → ∀ q : Str, q.head? ≠ some slash →
        resolve ops t base (p ++ slash :: q) s =
          match resolve ops t base p s with
          | (.error e, s) => (.error e, s)
          | (.ok v, s) => resolve ops t v q s) := by
  refine ⟨resolve_eq_walkFrom ops t base p s, fun hp q hq => ?_⟩
  have hhead : (p ++ slash :: q).head? = p.head? := by
    cases p with
    | nil => exact absurd rfl hp
    | cons c p => rfl
  have hqf : ∀ v s1, resolve ops t v q s1 = walkFrom ops t v false (components q) s1 := by
    intro v s1
    rw [resolve_eq_walkFrom, decide_eq_false hq]
  simp only [resolve_eq_walkFrom ops t base, hhead, components_append, hqf]
  rw [walkFrom, walkFrom]
  cases hi : t.initialized with
  | false => rfl
  | true =>
    simp only [Bool.not_true, Bool.false_eq_true, ↓reduceIte, walkFrom, hi]
    by_cases habs : p.head? = some slash
    · simp only [habs, decide_true, ↓reduceIte]
      cases t.rootVnode with
      | none => rfl
      | some root => exact walk_append ops t _ _ _ _
    · simp only [habs, decide_false, Bool.false_eq_true, ↓reduceIte]
      exact walk_append ops t _ _ _ _

/-! ### Calls on a descriptor -/

/-- All that changes is the offset of the descriptor and what the operation `op` does to its vnode. -/
structure OnFd (op : V → Fin maxFds → σ) (fd : ℤ) (f : FdTable V) (s : σ) (x : FdTable V × σ) : Prop where
  fds : x.1 = f ∨ ∃ i k, descriptor f fd = some i ∧ x.1 = Function.update f i { f i with offset := k }
  state : x.2 = s ∨ ∃ i v, descriptor f fd = some i ∧ (f i).vnode = some v ∧ x.2 = op v i

section OnFd

variable {ops : VnodeOps σ V} {fd : ℤ} {f : FdTable V} {s : σ}

omit [DecidableEq V]

theorem OnFd.refl {op : V → Fin maxFds → σ} : OnFd op fd f s (f, s) := ⟨.inl rfl, .inl rfl⟩

theorem read_onFd (buf : ℕ → UInt8) (n : ℕ) :
    OnFd (fun v i => (ops.read v (f i).offset buf n s).2) fd f s (read ops fd buf n f s).2 := by
  unfold read
  split
  · exact .refl
  · rename_i i hi
    split
    · exact .refl
    · rename_i v hv
      split
      · exact .refl
      · split
        · exact ⟨.inl rfl, .inr ⟨i, v, hi, hv, by simp [*]⟩⟩
        · exact ⟨.inr ⟨i, _, hi, rfl⟩, .inr ⟨i, v, hi, hv, by simp [*]⟩⟩

theorem write_onFd (buf : ℕ → UInt8) (n : ℕ) :
    OnFd (fun v i => (ops.write v (f i).offset buf n s).2) fd f s (write ops fd buf n f s).2 := by
  unfold write
  split
  · exact .refl
  · rename_i i hi
    split
    · exact .refl
    · rename_i v hv
      split
      · exact .refl
      · split
        · exact ⟨.inl rfl, .inr ⟨i, v, hi, hv, by simp [*]⟩⟩
        · exact ⟨.inr ⟨i, _, hi, rfl⟩, .inr ⟨i, v, hi, hv, by simp [*]⟩⟩

theorem readdir_onFd : OnFd (fun v i => (ops.readdir v (f i).offset s).2) fd f s (readdir ops fd f s).2 := by
  unfold readdir
  split
  · exact .refl
  · rename_i i hi
    split
    · exact .refl
    · rename_i v hv
      split
      · exact .refl
      · split
        · exact ⟨.inl rfl, .inr ⟨i, v, hi, hv, by simp [*]⟩⟩
        · exact ⟨.inr ⟨i, _, hi, rfl⟩, .inr ⟨i, v, hi, hv, by simp [*]⟩⟩

theorem stat_onFd : OnFd (fun v _ => (ops.stat v s).2) fd f s (f, (stat ops fd f s).2) := by
  unfold stat
  split
  · exact .refl
  · split
    · exact .refl
    · exact ⟨.inl rfl, .inr ⟨_, _, ‹_›, ‹_›, rfl⟩⟩

theorem seek_onFd (offset whence : ℤ) :
    OnFd (fun v _ => (ops.stat v s).2) fd f s (seek ops fd offset whence f s).2 := by
  unfold seek
  split
  · exact .refl
  · rename_i i hi
    dsimp only
    split
    · exact ⟨.inr ⟨i, _, hi, rfl⟩, .inl rfl⟩
    · split
      · exact ⟨.inr ⟨i, _, hi, rfl⟩, .inl rfl⟩
      · split
        · exact .refl
        · rename_i v hv
          split
          · exact ⟨.inl rfl, .inr ⟨i, v, hi, hv, by simp [*]⟩⟩
          · exact ⟨.inr ⟨i, _, hi, rfl⟩, .inr ⟨i, v, hi, hv, by simp [*]⟩⟩

end OnFd

/-- A directory that holds itself under every name but `"x"`. -/
def selfOps : VnodeOps Unit Unit where
  type _ _ := .directory
  lookup _ c _ := if c = [120] then (.error .eNotFound, ()) else (.ok (), ())
  create _ _ _ := (.error .eIo, ())
  mkdir _ _ _ := (.error .eIo, ())
  read _ _ _ _ _ := (.error .eIsDir, ())
  write _ _ _ _ _ := (.error .eIsDir, ())
  readdir _ _ _ := (.error .eNotFound, ())
  stat _ _ := (.ok ⟨.directory, 0⟩, ())
  ref _ _ := ()
  unref _ _ := ()
  setMountParent _ _ _ := ()

/-- `"/a" + "/" + "x"` from a null base. -/
theorem resolve_is_fold_self :
    resolve selfOps ⟨fun _ => none, some (), true⟩ none ([47, 97] ++ slash :: [120]) () = (.error .eNotFound, ()) := by
  rw [(resolve_is_fold selfOps _ none [47, 97] ()).2 (by decide) [120] (by decide),
    (resolve_is_fold selfOps _ none [47, 97] ()).1]
  exact (resolve_is_fold selfOps _ (some ()) [120] ()).1

end Tori.Vfs
