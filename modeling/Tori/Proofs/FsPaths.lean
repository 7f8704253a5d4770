import Tori.Proofs.FsCalls

/-! Paths through RamFS directories. Such a path can be followed again with the same result as long
as directories only grow; a path that meets an overlay directory ends in a vnode that did not exist
before, since every overlay lookup allocates one. -/

namespace Tori.Fs

open Vfs State

variable {s s' s₁ s₂ : State} {A : Allocator} {g : Layers} {t : Table Addr}

variable {v w : Addr} {cs : List Str}

/-- `Leads t s v cs w`: the components `cs`, looked up in RamFS directories, lead from `v` to `w`. -/
inductive Leads (t : Table Addr) (s : State) : Addr → List Str → Addr → Prop
  | nil (v : Addr) : Leads t s v [] v
  | cons {v w : Addr} {c : Str} {cs : List Str} {es : List RamfsEntry} {e : RamfsEntry} (hl : s.live v = true)
      (hty : (s.vnodes v).type = .directory) (hes : s.entries v = some es)
      (hf : es.find? (fun e => e.name = c) = some e) (hlen : c.length ≤ 255)
      (h : Leads t s (resolveMount t e.vnode) cs w) : Leads t s v (c :: cs) w

variable {es : List RamfsEntry} {ds : List Str} {u : Addr}

theorem isOverlay_of_entries (h : s.entries v = some es) :
    isOverlay v s = false := by
  rw [isOverlay, overlay?_eq, core_of_entries h]
  rfl

theorem stepInto_ramfs (hl : s.live v = true)
    (hty : (s.vnodes v).type = .directory) (hes : s.entries v = some es) {c : Str} (hlen : c.length ≤ 255) :
    stepInto (fsOps A g) t (some v) c s = match es.find? (fun e => e.name = c) with
      | none => (.error .eNotFound, s)
      | some e => (.ok (some (resolveMount t e.vnode)), s) := by
  have hd : ¬ ((fsOps A g).type v s ≠ .directory) := not_not.mpr hty
  unfold stepInto
  rw [if_neg (by omega)]
  dsimp only
  rw [if_neg hd, lookup_ramfs (isOverlay_of_entries hes), ramfsLookup_eq hl hes]
  cases es.find? _ <;> rfl

theorem Leads.walk (h : Leads t s v cs w) :
    Vfs.walk (fsOps A g) t cs (some v) s = (.ok (some w), s) := by
  induction h with
  | nil v => rfl
  | cons hl hty hes hf hlen _ ih =>
    rw [Vfs.walk, stepInto_ramfs hl hty hes hlen, hf]
    exact ih

theorem Leads.unique {w' : Addr} (h : Leads t s v cs w) (h' : Leads t s v cs w') : w = w' := by
  induction h with
  | nil v =>
    cases h'
    rfl
  | cons hl hty hes hf hlen _ ih =>
    cases h' with
    | cons hl' hty' hes' hf' hlen' h' =>
      rw [hes] at hes'
      injection hes' with hes'
      subst hes'
      rw [hf] at hf'
      injection hf' with hf'
      subst hf'
      exact ih h'

theorem Leads.mono (h : Leads t s v cs w) (hg : Grows s s') : Leads t s' v cs w := by
  induction h with
  | nil v => exact .nil v
  | cons hl hty hes hf hlen _ ih =>
    obtain ⟨more, hm⟩ := hg.entries _ _ hl hes
    exact .cons (hg.live _ hl) ((hg.type _ hl).trans hty) hm (by rw [List.find?_append, hf]; rfl) hlen ih

theorem Leads.append (h : Leads t s u cs v) (h' : Leads t s v ds w) :
    Leads t s u (cs ++ ds) w := by
  induction h with
  | nil v => exact h'
  | cons hl hty hes hf hlen _ ih => exact .cons hl hty hes hf hlen (ih h')

theorem Leads.split (h : Leads t s u (cs ++ ds) w) :
    ∃ v, Leads t s u cs v ∧ Leads t s v ds w := by
  induction cs generalizing u with
  | nil => exact ⟨u, .nil u, h⟩
  | cons c cs ih =>
    cases h with
    | cons hl hty hes hf hlen h =>
      obtain ⟨v, h1, h2⟩ := ih h
      exact ⟨v, .cons hl hty hes hf hlen h1, h2⟩

/-- One component below a RamFS directory: the heap stays as it is. -/
theorem stepInto_cases (hv : s.live v = true) (hov : isOverlay v s = false) (c : Str) :
    (∃ e, stepInto (fsOps A g) t (some v) c s = (.error e, s)) ∨
      ∃ es e, stepInto (fsOps A g) t (some v) c s = (.ok (some (resolveMount t e.vnode)), s) ∧ c.length ≤ 255 ∧
        (s.vnodes v).type = .directory ∧ s.entries v = some es ∧ es.find? (fun e => e.name = c) = some e := by
  unfold stepInto
  split
  · exact Or.inl ⟨_, rfl⟩
  · rename_i hlen
    dsimp only
    split
    · exact Or.inl ⟨_, rfl⟩
    · rename_i hty
      have hlk : (fsOps A g).lookup v c s = ramfsLookup v c s := lookup_ramfs hov
      have hs : ((fsOps A g).lookup v c s).2 = s := by rw [hlk, ramfsLookup_snd, touch_of_live hv]
      split
      · rename_i e s1 h1
        rw [h1] at hs
        have hs : s1 = s := hs
        rw [hs]
        exact Or.inl ⟨e, rfl⟩
      · rename_i next s1 h1
        rw [h1] at hs
        have hs : s1 = s := hs
        rw [hs]
        obtain ⟨-, es, e, hes, hf, he⟩ := ramfsLookup_ok (hlk ▸ h1)
        exact Or.inr ⟨es, e, by rw [he], by omega, not_not.mp hty, hes, hf⟩

end Tori.Fs
