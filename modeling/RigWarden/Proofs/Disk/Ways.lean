import Mathlib.Logic.Relation
import RigWarden.Proofs.Disk.Tree

/-!
# Ways through the tree

A way is followed step by step: somebody stands at a place with links left to follow and components
ahead. The steps only look at directories and links, so a way is still there when these are still
there, and it stays among the places that its steps may look at. Where `Disk.walk` comes to is where
the steps end.
-/

namespace RigWarden.Disk

open Relation Text

structure Stand where
  /-- How many links may still be followed. -/
  links : Nat
  place : Place
  ahead : List Path.Component

namespace Stand

/-- One step that looks only at places in `A`. -/
inductive Step (d : Disk) (A : Place → Prop) : Stand → Stand → Prop
  | root {n here cs} : Step d A ⟨n, here, .root :: cs⟩ ⟨n, [], cs⟩
  | here {n here cs} : Step d A ⟨n, here, .here :: cs⟩ ⟨n, here, cs⟩
  | up {n here cs} : Step d A ⟨n, here, .up :: cs⟩ ⟨n, here.dropLast, cs⟩
  | down {n here s cs} (hs : (utf8 s).length ≤ maxName) (hA : A (here ++ [s]))
      (hd : d.get? (here ++ [s]) = some .dir) :
      Step d A ⟨n, here, .name s :: cs⟩ ⟨n, here ++ [s], cs⟩
  | link {n here s cs t} (hs : (utf8 s).length ≤ maxName) (hA : A (here ++ [s]))
      (hd : d.get? (here ++ [s]) = some (.link t)) :
      Step d A ⟨n + 1, here, .name s :: cs⟩ ⟨n, here, Path.steps t ++ cs⟩

/-- With more to do at the end of the way. -/
def append (a : Stand) (cs : List Path.Component) : Stand := { a with ahead := a.ahead ++ cs }

section steps

variable {d e : Disk} {A B : Place → Prop} {a b c : Stand}

theorem Step.eq_of_step (h : Step d A a b) (h' : Step d B a c) : b = c := by
  cases h with
  | root | here | up =>
    cases h'
    rfl
  | down hs hA hd =>
    cases h' with
    | down => rfl
    | link _ _ hd' =>
      rw [hd] at hd'
      cases hd'
  | link hs hA hd =>
    cases h' with
    | down _ _ hd' =>
      rw [hd] at hd'
      cases hd'
    | link _ _ hd' =>
      rw [hd] at hd'
      cases hd'
      rfl

/-- A step can be made in every tree that has what it looks at. -/
theorem Step.mono (h : Step d A a b)
    (hkeep : ∀ p n, A p → d.get? p = some n → (∀ f, n ≠ .file f) → B p ∧ e.get? p = some n) :
    Step e B a b := by
  cases h with
  | root => exact .root
  | here => exact .here
  | up => exact .up
  | down hs hA hd =>
    obtain ⟨hB, he⟩ := hkeep _ _ hA hd nofun
    exact .down hs hB he
  | link hs hA hd =>
    obtain ⟨hB, he⟩ := hkeep _ _ hA hd nofun
    exact .link hs hB he

theorem Step.append (h : Step d A a b) (cs : List Path.Component) :
    Step d A (a.append cs) (b.append cs) := by
  cases h with
  | root => exact .root
  | here => exact .here
  | up => exact .up
  | down hs hA hd => exact .down hs hA hd
  | @link n here s cs' t hs hA hd =>
    have h := @Step.link _ _ n _ _ (cs' ++ cs) _ hs hA hd
    rwa [← List.append_assoc] at h

theorem Step.inter (h : Step d A a b) (h' : Step d B a c) : Step d (fun p => A p ∧ B p) a b := by
  cases h with
  | root => exact .root
  | here => exact .here
  | up => exact .up
  | down hs hA hd =>
    cases h' with
    | down _ hB _ => exact .down hs ⟨hA, hB⟩ hd
    | link _ hB _ => exact .down hs ⟨hA, hB⟩ hd
  | link hs hA hd =>
    cases h' with
    | down _ hB _ => exact .link hs ⟨hA, hB⟩ hd
    | link _ hB _ => exact .link hs ⟨hA, hB⟩ hd

theorem Step.links_le (h : Step d A a b) : b.links ≤ a.links := by
  cases h <;> simp

theorem Step.ahead_ne_nil (h : Step d A a b) : a.ahead ≠ [] := by
  cases h <;> simp

/-- From a directory one comes to directories. -/
theorem Step.dir (h : Step d A a b) (hd : d.WellFormed) (ha : d.get? a.place = some .dir) :
    d.get? b.place = some .dir := by
  cases h with
  | root => rfl
  | here | link => exact ha
  | up => exact hd.parent _ _ ha
  | down _ _ hd => exact hd

/-- The first step does not depend on what is to be done at the end. -/
theorem exists_step_of_append {n : Nat} {here : Place} {s : Path.Component}
    {cs rest : List Path.Component} (h : Step d A ⟨n, here, s :: cs ++ rest⟩ b) :
    ∃ c, Step d A ⟨n, here, s :: cs⟩ c ∧ c.append rest = b := by
  rw [List.cons_append] at h
  cases h with
  | root => exact ⟨_, .root, rfl⟩
  | here => exact ⟨_, .here, rfl⟩
  | up => exact ⟨_, .up, rfl⟩
  | down hs hA hd => exact ⟨_, .down hs hA hd, rfl⟩
  | link hs hA hd => exact ⟨_, .link hs hA hd, by simp [append]⟩

end steps

end Stand

/-- All steps of `cs` can be made from `here`, within `A`, and end at `there` with `m` links left. -/
def Leads (d : Disk) (A : Place → Prop) (n : Nat) (here : Place) (cs : List Path.Component)
    (m : Nat) (there : Place) : Prop :=
  ReflTransGen (Stand.Step d A) ⟨n, here, cs⟩ ⟨m, there, []⟩

/-- The steps of `cs` come to a last name that leads nowhere else. -/
def Ends (d : Disk) (A : Place → Prop) (n : Nat) (here : Place) (cs : List Path.Component)
    (dir : Place) (s : String) : Prop :=
  ∃ m, ReflTransGen (Stand.Step d A) ⟨n, here, cs⟩ ⟨m, dir, [.name s]⟩

abbrev Anywhere : Place → Prop := fun _ => True

section ways

variable {d e : Disk} {A B : Place → Prop} {n m k : Nat} {here there mid : Place}
  {cs rest : List Path.Component}

theorem Leads.refl (d : Disk) (A : Place → Prop) (n : Nat) (here : Place) :
    d.Leads A n here [] n here := ReflTransGen.refl

theorem steps_append {a b : Stand} (h : ReflTransGen (Stand.Step d A) a b)
    (cs : List Path.Component) : ReflTransGen (Stand.Step d A) (a.append cs) (b.append cs) :=
  h.lift (Stand.append · cs) fun _ _ hs => hs.append cs

theorem Leads.trans (h : d.Leads A n here cs k mid) (h' : d.Leads A k mid rest m there) :
    d.Leads A n here (cs ++ rest) m there :=
  (steps_append h rest).trans h'

theorem steps_mono {a b : Stand} (h : ReflTransGen (Stand.Step d A) a b)
    (hkeep : ∀ p n, A p → d.get? p = some n → (∀ f, n ≠ .file f) → B p ∧ e.get? p = some n) :
    ReflTransGen (Stand.Step e B) a b :=
  h.lift id fun _ _ hs => hs.mono hkeep

/-- What leads somewhere leads there in every tree that has what is looked at. -/
theorem Leads.mono (h : d.Leads A n here cs m there)
    (hkeep : ∀ p n, A p → d.get? p = some n → (∀ f, n ≠ .file f) → B p ∧ e.get? p = some n) :
    e.Leads B n here cs m there :=
  steps_mono h hkeep

theorem Leads.anywhere (h : d.Leads A n here cs m there) : d.Leads Anywhere n here cs m there :=
  h.mono fun _ _ _ hd _ => ⟨trivial, hd⟩

theorem steps_from_nil {b : Stand}
    (h : ReflTransGen (Stand.Step d A) ⟨n, here, []⟩ b) : b = ⟨n, here, []⟩ := by
  rcases h.cases_head with rfl | ⟨c, hs, -⟩
  · rfl
  · exact absurd rfl hs.ahead_ne_nil

/-- A way leads to one place only. -/
theorem Leads.unique (h : d.Leads A n here cs m there) (h' : d.Leads B n here cs k mid) :
    k = m ∧ mid = there := by
  have hu : Relator.RightUnique (Stand.Step d Anywhere) := fun _ _ _ hs hs' => hs.eq_of_step hs'
  rcases ReflTransGen.total_of_right_unique hu h.anywhere h'.anywhere with hs | hs
  · cases steps_from_nil hs
    exact ⟨rfl, rfl⟩
  · cases steps_from_nil hs
    exact ⟨rfl, rfl⟩

theorem steps_inter {a b c : Stand} (h : ReflTransGen (Stand.Step d A) a b)
    (h' : ReflTransGen (Stand.Step d B) a c) (hc : c.ahead = []) :
    ReflTransGen (Stand.Step d fun p => A p ∧ B p) a b := by
  induction h using ReflTransGen.head_induction_on with
  | refl => exact .refl
  | head hs _ ih =>
    rcases h'.cases_head with rfl | ⟨x, hx, hrest⟩
    · exact absurd hc hs.ahead_ne_nil
    · obtain rfl := hs.eq_of_step hx
      exact .head (hs.inter hx) (ih hrest)

/-- A way that stays in two sets of places stays in what they have in common. -/
theorem Leads.inter (h : d.Leads A n here cs m there) (h' : d.Leads B n here cs k mid) :
    d.Leads (fun p => A p ∧ B p) n here cs m there :=
  steps_inter h h' rfl

theorem steps_links_le {a b : Stand} (h : ReflTransGen (Stand.Step d A) a b) :
    b.links ≤ a.links := by
  induction h with
  | refl => exact Nat.le_refl _
  | tail _ hs ih => exact Nat.le_trans hs.links_le ih

theorem Leads.links_le (h : d.Leads A n here cs m there) : m ≤ n := steps_links_le h

/-- A way needs the links that it follows and no more. -/
theorem steps_shift {a b : Stand} (h : ReflTransGen (Stand.Step d A) a b) (k : Nat) :
    ReflTransGen (Stand.Step d A) { a with links := a.links - b.links + k } { b with links := k } := by
  induction h using ReflTransGen.head_induction_on with
  | refl => simpa using ReflTransGen.refl
  | head hs hrest ih =>
    have hle := steps_links_le hrest
    refine .head ?_ ih
    cases hs with
    | root => exact .root
    | here => exact .here
    | up => exact .up
    | down hs hA hd => exact .down hs hA hd
    | @link n here s cs t hs hA hd =>
      simp only at hle ⊢
      rw [show n + 1 - b.links + k = (n - b.links + k) + 1 by omega]
      exact .link hs hA hd

theorem Leads.shift (h : d.Leads A n here cs m there) {j : Nat} (hj : n - m ≤ j) :
    d.Leads A j here cs (j - (n - m)) there := by
  have hs := steps_shift h (j - (n - m))
  simp only at hs
  rwa [Nat.add_sub_cancel' hj] at hs

/-- A way along two lists of steps gets to the end of the first, or stops before that. -/
theorem steps_split {a b : Stand} (h : ReflTransGen (Stand.Step d A) (a.append rest) b) :
    (∃ k mid, d.Leads A a.links a.place a.ahead k mid ∧
      ReflTransGen (Stand.Step d A) ⟨k, mid, rest⟩ b) ∨
    ∃ b' : Stand, b = b'.append rest ∧ b'.ahead ≠ [] := by
  generalize hx : a.append rest = x at h
  induction h using ReflTransGen.head_induction_on generalizing a with
  | refl =>
    obtain ⟨n, here, cs⟩ := a
    cases cs with
    | nil => exact .inl ⟨n, here, .refl _ _ _ _, by rw [← hx]; exact .refl⟩
    | cons c cs => exact .inr ⟨⟨n, here, c :: cs⟩, hx.symm, nofun⟩
  | head hs hrest ih =>
    obtain ⟨n, here, cs⟩ := a
    cases cs with
    | nil =>
      subst hx
      exact .inl ⟨n, here, .refl _ _ _ _, .head hs hrest⟩
    | cons c cs =>
      have hstep : ∃ y, Stand.Step d A ⟨n, here, c :: cs⟩ y ∧ y.append rest = _ :=
        Stand.exists_step_of_append (hx ▸ hs)
      obtain ⟨y, hy, rfl⟩ := hstep
      rcases ih rfl with ⟨k, mid, hl, hr⟩ | hstop
      · exact .inl ⟨k, mid, .head hy hl, hr⟩
      · exact .inr hstop

/-- A way along two lists of steps goes along the first and then along the second. -/
theorem Leads.split (h : d.Leads A n here (cs ++ rest) m there) :
    ∃ k mid, d.Leads A n here cs k mid ∧ d.Leads A k mid rest m there := by
  rcases steps_split (a := ⟨n, here, cs⟩) h with hs | ⟨b, hb, hne⟩
  · exact hs
  · have hnil := congrArg Stand.ahead hb
    simp only [Stand.append] at hnil
    exact absurd (List.append_eq_nil_iff.1 hnil.symm).1 hne

/-- One name leads to a directory that stands there, or over a link. -/
theorem Leads.name_cases {s : String} (h : d.Leads A n here [.name s] m there) :
    (d.get? (here ++ [s]) = some .dir ∧ (utf8 s).length ≤ maxName ∧ m = n ∧ there = here ++ [s]) ∨
      ∃ t j, d.get? (here ++ [s]) = some (.link t) ∧ n = j + 1 ∧
        d.Leads A j here (Path.steps t) m there := by
  rcases h.cases_head with hend | ⟨_, hstep, hrest⟩
  · exact absurd (congrArg Stand.ahead hend) nofun
  · cases hstep with
    | down hs _ hd =>
      obtain ⟨rfl, rfl, -⟩ := Stand.mk.inj (steps_from_nil hrest)
      exact .inl ⟨hd, hs, rfl, rfl⟩
    | link _ _ ht =>
      rw [List.append_nil] at hrest
      exact .inr ⟨_, _, ht, rfl, hrest⟩

theorem Leads.dir (h : d.Leads A n here cs m there) (hd : d.WellFormed)
    (hhere : d.get? here = some .dir) : d.get? there = some .dir := by
  unfold Leads at h
  generalize ha : (⟨n, here, cs⟩ : Stand) = a at h
  have hdir : d.get? a.place = some .dir := ha ▸ hhere
  clear ha
  induction h using ReflTransGen.head_induction_on with
  | refl => exact hdir
  | head hs _ ih => exact ih (hs.dir hd hdir)

/-- A way does without a place that is no directory, or follows the link that is there. -/
theorem steps_avoid {a b : Stand} (h : ReflTransGen (Stand.Step d A) a b) {q : Place}
    (hB : ∀ p, A p → d.get? p ≠ none → B p ∨ p = q) (hq : d.get? q ≠ some .dir) :
    ReflTransGen (Stand.Step d fun p => A p ∧ B p) a b ∨
      ∃ t j cs, d.get? q = some (.link t) ∧ j < a.links ∧
        ReflTransGen (Stand.Step d A) ⟨j, q.dropLast, Path.steps t ++ cs⟩ b := by
  induction h using ReflTransGen.head_induction_on with
  | refl => exact .inl .refl
  | head hs hrest ih =>
    rcases ih with ih | ⟨t, j, cs, ht, hj, hr⟩
    · cases hs with
      | root => exact .inl (.head .root ih)
      | here => exact .inl (.head .here ih)
      | up => exact .inl (.head .up ih)
      | down hs hA hd =>
        have hBp := (hB _ hA (by rw [hd]; exact nofun)).resolve_right fun he => hq (he ▸ hd)
        exact .inl (.head (.down hs ⟨hA, hBp⟩ hd) ih)
      | @link n here s cs t hs hA hd =>
        rcases hB _ hA (by rw [hd]; exact nofun) with hBp | he
        · exact .inl (.head (.link hs ⟨hA, hBp⟩ hd) ih)
        · refine .inr ⟨t, n, cs, he ▸ hd, Nat.lt_succ_self n, ?_⟩
          rw [← he, List.dropLast_concat]
          exact hrest
    · exact .inr ⟨t, j, cs, ht, Nat.lt_of_lt_of_le hj hs.links_le, hr⟩

theorem Leads.avoids_or (h : d.Leads A n here cs m there) {q : Place}
    (hB : ∀ p, A p → d.get? p ≠ none → B p ∨ p = q) (hq : d.get? q ≠ some .dir) :
    d.Leads (fun p => A p ∧ B p) n here cs m there ∨
      ∃ t j k mid, d.get? q = some (.link t) ∧ d.Leads A j q.dropLast (Path.steps t) k mid ∧
        j < n ∧ m ≤ k := by
  rcases steps_avoid h hB hq with hs | ⟨t, j, cs', ht, hj, hs⟩
  · exact .inl hs
  · obtain ⟨k, mid, hl, hr⟩ := Leads.split hs
    exact .inr ⟨t, j, k, mid, ht, hl, hj, hr.links_le⟩

/-- Who starts outside a place and does not look into it stays outside. -/
theorem Leads.stays_out (h : d.Leads A n here cs m there) {P : Place} (hP : P ≠ [])
    (hA : ∀ p, A p → isWithin P p = false) (hhere : isWithin P here = false) :
    isWithin P there = false := by
  unfold Leads at h
  have hsteps : ∀ {a b : Stand}, ReflTransGen (Stand.Step d A) a b → isWithin P a.place = false →
      isWithin P b.place = false := by
    intro a b h ha
    induction h with
    | refl => exact ha
    | tail _ hs ih =>
      cases hs with
      | root => exact Bool.eq_false_iff.2 fun hw => hP (eq_of_isWithin hw (Nat.zero_le _)).symm
      | here => exact ih
      | up =>
        exact Bool.eq_false_iff.2 fun hw => Bool.eq_false_iff.1 ih (isWithin_of_dropLast hw)
      | down _ hAp _ => exact hA _ hAp
      | link => exact ih
  exact hsteps h hhere

/-- A way with a last name goes where its first steps lead, and ends there. -/
theorem Ends.split {x s : String} {dir : Place} (h : d.Ends A n here (cs ++ [.name x]) dir s) :
    ∃ k mid, d.Leads A n here cs k mid ∧ d.Ends A k mid [.name x] dir s := by
  obtain ⟨m, h⟩ := h
  rcases steps_split (a := ⟨n, here, cs⟩) h with ⟨k, mid, hl, hr⟩ | ⟨b, hb, hne⟩
  · exact ⟨k, mid, hl, m, hr⟩
  · have hahead := congrArg Stand.ahead hb
    simp only [Stand.append] at hahead
    have hlen := congrArg List.length hahead
    simp at hlen
    exact absurd hlen hne

theorem steps_from_file {s : String} {f : FileData} {b : Stand}
    (h : ReflTransGen (Stand.Step d A) ⟨n, here, [.name s]⟩ b)
    (hf : d.get? (here ++ [s]) = some (.file f)) : b = ⟨n, here, [.name s]⟩ := by
  rcases h.cases_head with rfl | ⟨c, hs, -⟩
  · rfl
  · cases hs with
    | down _ _ hd => rw [hf] at hd; cases hd
    | link _ _ hd => rw [hf] at hd; cases hd

/-- Of two ways along the same steps one goes on from where the other is, however many links they may
follow. -/
theorem steps_total {a b : Stand} {k' : Nat} (h : ReflTransGen (Stand.Step d A) ⟨n, here, cs⟩ a)
    (h' : ReflTransGen (Stand.Step d B) ⟨k', here, cs⟩ b) :
    ReflTransGen (Stand.Step d Anywhere) { a with links := k' - b.links }
        { b with links := n - a.links } ∨
      ReflTransGen (Stand.Step d Anywhere) { b with links := n - a.links }
        { a with links := k' - b.links } := by
  have hany : ∀ {C : Place → Prop} {a b : Stand}, ReflTransGen (Stand.Step d C) a b →
      ReflTransGen (Stand.Step d Anywhere) a b := fun hs =>
    steps_mono hs fun _ _ _ hn _ => ⟨trivial, hn⟩
  have hshift := steps_shift (hany h) (k' - b.links)
  have hshift' := steps_shift (hany h') (n - a.links)
  simp only [Nat.add_comm (k' - b.links)] at hshift hshift'
  have hu : Relator.RightUnique (Stand.Step d Anywhere) := fun _ _ _ hs hs' => hs.eq_of_step hs'
  exact ReflTransGen.total_of_right_unique hu hshift hshift'

/-- A way ends at one file only, with however many links it may follow. -/
theorem Ends.unique {dir dir' : Place} {s s' : String} {f f' : FileData}
    (h : d.Ends A n here cs dir s) (h' : d.Ends B k here cs dir' s')
    (hf : d.get? (dir ++ [s]) = some (.file f)) (hf' : d.get? (dir' ++ [s']) = some (.file f')) :
    dir' = dir ∧ s' = s := by
  obtain ⟨m, hm⟩ := h
  obtain ⟨j, hj⟩ := h'
  rcases steps_total hm hj with hs | hs
  · obtain ⟨-, rfl, hahead⟩ := Stand.mk.inj (steps_from_file hs hf)
    cases hahead
    exact ⟨rfl, rfl⟩
  · obtain ⟨-, rfl, hahead⟩ := Stand.mk.inj (steps_from_file hs hf')
    cases hahead
    exact ⟨rfl, rfl⟩

/-- A way that ends at a file leads to no directory. -/
theorem Ends.not_leads {dir : Place} {s : String} {f : FileData} (h : d.Ends A n here cs dir s)
    (hf : d.get? (dir ++ [s]) = some (.file f)) : ¬ d.Leads B k here cs m there := by
  intro hl
  obtain ⟨j, hj⟩ := h
  rcases steps_total hj hl with hs | hs
  · exact absurd (congrArg Stand.ahead (steps_from_file hs hf)) nofun
  · exact absurd (congrArg Stand.ahead (steps_from_nil hs)) nofun

/-- Who does not name a place, and follows no link that does, never comes there. -/
theorem Leads.keeps_out (h : d.Leads A n here cs m there) {Q : Place} {s : String}
    (hhere : isWithin (Q ++ [s]) here = false) (hcs : .name s ∉ cs)
    (hlinks : ∀ q t, isWithin (Q ++ [s]) q = false → d.get? q = some (.link t) →
      .name s ∉ Path.steps t) :
    d.Leads (fun p => isWithin (Q ++ [s]) p = false) n here cs m there := by
  unfold Leads at h ⊢
  have hsteps : ∀ {a b : Stand}, ReflTransGen (Stand.Step d A) a b →
      isWithin (Q ++ [s]) a.place = false → .name s ∉ a.ahead →
      ReflTransGen (Stand.Step d fun p => isWithin (Q ++ [s]) p = false) a b := by
    intro a b h
    induction h using ReflTransGen.head_induction_on with
    | refl => exact fun _ _ => .refl
    | head hs _ ih =>
      intro hplace hahead
      have hdown : ∀ {here : Place} {x : String}, isWithin (Q ++ [s]) here = false → x ≠ s →
          isWithin (Q ++ [s]) (here ++ [x]) = false := fun hh hx =>
        Bool.eq_false_iff.2 fun hw => (isWithin_snoc.1 hw).elim (Bool.eq_false_iff.1 hh) fun he =>
          hx (List.cons.inj (List.append_inj' he rfl).2).1.symm
      have hrest : ∀ {c : Path.Component} {cs : List Path.Component}, .name s ∉ c :: cs →
          .name s ∉ cs := fun hc hm => hc (List.mem_cons_of_mem _ hm)
      cases hs with
      | root => exact .head .root (ih (Bool.eq_false_iff.2 fun hw => by
          simpa using eq_of_isWithin hw (Nat.zero_le _)) (hrest hahead))
      | here => exact .head .here (ih hplace (hrest hahead))
      | up =>
        exact .head .up (ih (Bool.eq_false_iff.2 fun hw =>
          Bool.eq_false_iff.1 hplace (isWithin_of_dropLast hw)) (hrest hahead))
      | @down n here x cs hx _ hd =>
        have hout := hdown hplace fun he => hahead (he ▸ List.mem_cons_self)
        exact .head (.down hx hout hd) (ih hout (hrest hahead))
      | @link n here x cs t hx _ ht =>
        have hout := hdown hplace fun he => hahead (he ▸ List.mem_cons_self)
        refine .head (.link hx hout ht) (ih hplace fun hm => ?_)
        exact (List.mem_append.1 hm).elim (hlinks _ t hout ht) (hrest hahead)
  exact hsteps h hhere hcs

end ways

/-! What a lookup finds -/

def jumpAt (d : Disk) (l : Lookup) : Nat → Walk
  | 0 => fun _ _ _ => .error .tooManyLinks
  | n + 1 => walk d l n

section walks

variable {d : Disk} {l : Lookup} {n m : Nat} {slash : Bool} {here there dir : Place} {s : String}
  {cs rest : List Path.Component} {found : Found}

theorem walk_eq (d : Disk) (l : Lookup) (n : Nat) : walk d l n = walkFrom d l (jumpAt d l n) := by
  cases n <;> rfl

@[simp] theorem walk_nil (d : Disk) (l : Lookup) (n : Nat) (slash : Bool) (here : Place) :
    walk d l n slash here [] = .ok (.node here .dir) := by
  rw [walk_eq]
  cases slash <;> rfl

@[simp] theorem walk_root (d : Disk) (l : Lookup) (n : Nat) (slash : Bool) (here : Place)
    (cs : List Path.Component) :
    walk d l n slash here (.root :: cs) = walk d l n slash [] cs := by
  rw [walk_eq, walkFrom]

@[simp] theorem walk_here (d : Disk) (l : Lookup) (n : Nat) (slash : Bool) (here : Place)
    (cs : List Path.Component) :
    walk d l n slash here (.here :: cs) = walk d l n slash here cs := by
  rw [walk_eq, walkFrom]

@[simp] theorem walk_up (d : Disk) (l : Lookup) (n : Nat) (slash : Bool) (here : Place)
    (cs : List Path.Component) :
    walk d l n slash here (.up :: cs) = walk d l n slash here.dropLast cs := by
  rw [walk_eq, walkFrom]

theorem walk_last (d : Disk) (l : Lookup) (n : Nat) (slash : Bool) (here : Place) (s : String) :
    walk d l n slash here [.name s] = finish d l slash (jumpAt d l n) here s := by
  rw [walk_eq, walkFrom]

theorem walk_name (d : Disk) (l : Lookup) (n : Nat) (slash : Bool) (here : Place) (s : String)
    (hcs : cs ≠ []) :
    walk d l n slash here (.name s :: cs) =
      if maxName < (utf8 s).length then .error .nameTooLong
      else match d.get? (here ++ [s]) with
        | none => .error .notFound
        | some .dir => walk d l n slash (here ++ [s]) cs
        | some (.file _) => .error .notDirectory
        | some (.link target) => jumpAt d l n slash here (Path.steps target ++ cs) := by
  obtain ⟨c, cs, rfl⟩ := List.exists_cons_of_ne_nil hcs
  rw [walk_eq]
  exact walkFrom.eq_def d l (jumpAt d l n) slash here (.name s :: c :: cs)

/-- What comes after the first steps is looked up from where these lead. -/
theorem walk_append (hrest : rest ≠ []) (h : walk d l n slash here (cs ++ rest) = .ok found) :
    ∃ m there, d.Leads Anywhere n here cs m there ∧ walk d l m slash there rest = .ok found := by
  induction n using Nat.strongRecOn generalizing here cs with
  | ind n ih =>
    induction cs generalizing here with
    | nil => exact ⟨n, here, .refl _ _ _ _, h⟩
    | cons c cs ihc =>
      rw [List.cons_append] at h
      cases c with
      | root =>
        rw [walk_root] at h
        obtain ⟨m, there, hl, hw⟩ := ihc h
        exact ⟨m, there, .head .root hl, hw⟩
      | here =>
        rw [walk_here] at h
        obtain ⟨m, there, hl, hw⟩ := ihc h
        exact ⟨m, there, .head .here hl, hw⟩
      | up =>
        rw [walk_up] at h
        obtain ⟨m, there, hl, hw⟩ := ihc h
        exact ⟨m, there, .head .up hl, hw⟩
      | name s =>
        rw [walk_name _ _ _ _ _ _ (by simp [hrest])] at h
        split at h
        · cases h
        · next hs =>
          split at h
          · cases h
          · next hd =>
            obtain ⟨m, there, hl, hw⟩ := ihc h
            exact ⟨m, there, .head (.down (Nat.le_of_not_lt hs) trivial hd) hl, hw⟩
          · cases h
          · next t hd =>
            cases n with
            | zero => cases h
            | succ n =>
              rw [← List.append_assoc] at h
              obtain ⟨m, there, hl, hw⟩ := ih n (Nat.lt_succ_self n) h
              exact ⟨m, there, .head (.link (Nat.le_of_not_lt hs) trivial hd) hl, hw⟩

theorem walk_step {A : Place → Prop} {a b : Stand} (h : Stand.Step d A a b) (hrest : rest ≠ []) :
    walk d l a.links slash a.place (a.ahead ++ rest) =
      walk d l b.links slash b.place (b.ahead ++ rest) := by
  cases h with
  | root => simp
  | here => simp
  | up => simp
  | down hs hA hd =>
    simp only [List.cons_append]
    rw [walk_name _ _ _ _ _ _ (by simp [hrest]), if_neg (Nat.not_lt.2 hs), hd]
  | link hs hA hd =>
    simp only [List.cons_append, List.append_assoc]
    rw [walk_name _ _ _ _ _ _ (by simp [hrest]), if_neg (Nat.not_lt.2 hs), hd]
    rfl

theorem Leads.walk_append {A : Place → Prop} (h : d.Leads A n here cs m there) (hrest : rest ≠ []) :
    walk d l n slash here (cs ++ rest) = walk d l m slash there rest := by
  unfold Leads at h
  have hsteps : ∀ {a b : Stand}, Relation.ReflTransGen (Stand.Step d A) a b →
      walk d l a.links slash a.place (a.ahead ++ rest) =
        walk d l b.links slash b.place (b.ahead ++ rest) := by
    intro a b h
    induction h with
    | refl => rfl
    | tail _ hs ih => exact ih.trans (walk_step hs hrest)
  exact hsteps h

/-- A lookup that goes through links comes to the directory that a way leads to. -/
theorem Leads.walk_through {A : Place → Prop} (h : d.Leads A n here cs m there) (slash : Bool) :
    walk d .through n slash here cs = .ok (.node there .dir) := by
  unfold Leads at h
  have hsteps : ∀ {a : Stand}, Relation.ReflTransGen (Stand.Step d A) a ⟨m, there, []⟩ →
      ∀ slash, walk d .through a.links slash a.place a.ahead = .ok (.node there .dir) := by
    intro a h
    induction h using ReflTransGen.head_induction_on with
    | refl => exact fun slash => walk_nil _ _ _ _ _
    | head hs _ ih =>
      intro slash
      cases hs with
      | root => simpa using ih slash
      | here => simpa using ih slash
      | up => simpa using ih slash
      | @down n here s cs hs hA hd =>
        cases cs with
        | nil =>
          have hend := ih slash
          simp only [walk_nil, Except.ok.injEq] at hend
          rw [walk_last, finish, if_neg (by simp), if_neg (Nat.not_lt.2 hs), hd, hend]
        | cons c cs =>
          rw [walk_name _ _ _ _ _ _ (by simp), if_neg (Nat.not_lt.2 hs), hd]
          exact ih slash
      | @link n here s cs t hs hA hd =>
        cases cs with
        | nil =>
          rw [walk_last, finish, if_neg (by simp), if_neg (Nat.not_lt.2 hs), hd]
          simpa [jumpAt] using ih (slash || Path.endsInSlash t)
        | cons c cs =>
          rw [walk_name _ _ _ _ _ _ (by simp), if_neg (Nat.not_lt.2 hs), hd]
          exact ih slash
  exact hsteps h slash

theorem Leads.concat {A : Place → Prop} (h : d.Leads A n here cs m dir) {c : Path.Component}
    (hs : Stand.Step d A ⟨m, dir, [c]⟩ ⟨m, there, []⟩) : d.Leads A n here (cs ++ [c]) m there :=
  h.trans (.single hs)

theorem Leads.ends {A : Place → Prop} (h : d.Leads A n here cs m dir) (s : String) :
    d.Ends A n here (cs ++ [.name s]) dir s :=
  ⟨m, steps_append h [.name s]⟩

/-- A lookup that goes through links finds a directory that a way leads to, or a file where the way
ends. -/
theorem walk_through_cases {p : Place} {nd : Node}
    (h : walk d .through n slash here cs = .ok (.node p nd)) :
    (nd = .dir ∧ ∃ m, d.Leads Anywhere n here cs m p) ∨
      ∃ f dir s, nd = .file f ∧ p = dir ++ [s] ∧ d.get? p = some (.file f) ∧
        d.Ends Anywhere n here cs dir s := by
  induction n using Nat.strongRecOn generalizing slash here cs with
  | ind n ih =>
    rcases List.eq_nil_or_concat cs with rfl | ⟨cs, c, rfl⟩
    · rw [walk_nil] at h
      cases h
      exact .inl ⟨rfl, n, .refl _ _ _ _⟩
    · rw [List.concat_eq_append] at h ⊢
      obtain ⟨m, dir, hl, hw⟩ := walk_append (by simp) h
      cases c with
      | root =>
        rw [walk_root, walk_nil] at hw
        cases hw
        exact .inl ⟨rfl, m, hl.concat .root⟩
      | here =>
        rw [walk_here, walk_nil] at hw
        cases hw
        exact .inl ⟨rfl, m, hl.concat .here⟩
      | up =>
        rw [walk_up, walk_nil] at hw
        cases hw
        exact .inl ⟨rfl, m, hl.concat .up⟩
      | name s =>
        rw [walk_last, finish, if_neg (by simp)] at hw
        split at hw
        · cases hw
        · next hlong =>
          have hs := Nat.le_of_not_lt hlong
          split at hw
          · cases hw
          · next hd =>
            cases hw
            exact .inl ⟨rfl, m, hl.concat (.down hs trivial hd)⟩
          · next f hd =>
            split at hw
            · cases hw
            · cases hw
              exact .inr ⟨f, dir, s, rfl, rfl, hd, hl.ends s⟩
          · next t hd =>
            rw [if_neg nofun] at hw
            cases m with
            | zero => cases hw
            | succ m =>
              have hstep : Stand.Step d Anywhere ⟨m + 1, dir, [.name s]⟩ ⟨m, dir, Path.steps t⟩ := by
                simpa using @Stand.Step.link _ _ _ _ _ [] _ hs trivial hd
              have hjump := (steps_append hl [.name s]).tail hstep
              rcases ih m (Nat.lt_of_succ_le hl.links_le) hw with
                ⟨hnd, k, hk⟩ | ⟨f, dir', s', hnd, hp, hf, k, hk⟩
              · exact .inl ⟨hnd, k, hjump.trans hk⟩
              · exact .inr ⟨f, dir', s', hnd, hp, hf, k, hjump.trans hk⟩

/-- A free name is the last one of a way. -/
theorem walk_entry_vacant {p : Place} (h : walk d .entry n slash here cs = .ok (.vacant p)) :
    ∃ cs' s m dir, cs = cs' ++ [.name s] ∧ d.Leads Anywhere n here cs' m dir ∧ p = dir ++ [s] ∧
      d.get? p = none ∧ (utf8 s).length ≤ maxName := by
  rcases List.eq_nil_or_concat cs with rfl | ⟨cs, c, rfl⟩
  · rw [walk_nil] at h
    cases h
  · rw [List.concat_eq_append] at h ⊢
    obtain ⟨m, dir, hl, hw⟩ := walk_append (by simp) h
    cases c with
    | root => rw [walk_root, walk_nil] at hw; cases hw
    | here => rw [walk_here, walk_nil] at hw; cases hw
    | up => rw [walk_up, walk_nil] at hw; cases hw
    | name s =>
      rw [walk_last, finish, if_neg (by simp)] at hw
      split at hw
      · cases hw
      · next hs =>
        split at hw
        · next hd =>
          cases hw
          exact ⟨cs, s, m, dir, rfl, hl, rfl, hd, Nat.le_of_not_lt hs⟩
        · cases hw
        · rw [if_neg (by simp)] at hw
          cases hw
        · rw [if_pos rfl] at hw
          cases hw

/-- What is found at the last name of a way, links included. -/
theorem walk_entry_last (d : Disk) (n : Nat) (slash : Bool) (hs : (utf8 s).length ≤ maxName) :
    walk d .entry n slash dir [.name s] =
      .ok (match d.get? (dir ++ [s]) with
        | none => .vacant (dir ++ [s])
        | some nd => .node (dir ++ [s]) nd) := by
  rw [walk_last, finish, if_neg (by simp), if_neg (Nat.not_lt.2 hs)]
  split <;> simp [*]

theorem walk_entry_cases (h : walk d .entry n slash here (cs ++ [.name s]) = .ok found) :
    ∃ m dir, d.Leads Anywhere n here cs m dir ∧ (utf8 s).length ≤ maxName ∧
      found = match d.get? (dir ++ [s]) with
        | none => .vacant (dir ++ [s])
        | some nd => .node (dir ++ [s]) nd := by
  obtain ⟨m, dir, hl, hw⟩ := walk_append (by simp) h
  have hs : (utf8 s).length ≤ maxName := by
    rw [walk_last, finish, if_neg (by simp)] at hw
    by_contra hlong
    rw [if_pos (Nat.lt_of_not_le hlong)] at hw
    cases hw
  rw [walk_entry_last d m slash hs] at hw
  exact ⟨m, dir, hl, hs, (Except.ok.inj hw).symm⟩

/-- A free name is free, however it is looked up. -/
theorem walkFrom_vacant {jump : Walk} {place : Place}
    (hjump : ∀ slash here cs, jump slash here cs = .ok (.vacant place) → d.get? place = none)
    (h : walkFrom d l jump slash here cs = .ok (.vacant place)) : d.get? place = none := by
  induction cs generalizing here with
  | nil => cases slash <;> cases h
  | cons c cs ih =>
    cases c with
    | root => exact ih (by simpa only [walkFrom] using h)
    | here => exact ih (by simpa only [walkFrom] using h)
    | up => exact ih (by simpa only [walkFrom] using h)
    | name s =>
      cases cs with
      | nil =>
        simp only [walkFrom, finish] at h
        split at h
        · cases h
        · split at h
          · cases h
          · split at h
            · next hv =>
              cases h
              exact hv
            · cases h
            · split at h <;> cases h
            · split at h
              · cases h
              · exact hjump _ _ _ h
      | cons c cs =>
        simp only [walkFrom] at h
        split at h
        · cases h
        · split at h
          · cases h
          · exact ih h
          · cases h
          · exact hjump _ _ _ h

theorem walk_vacant {place : Place}
    (h : walk d l n slash here cs = .ok (.vacant place)) : d.get? place = none := by
  induction n generalizing slash here cs with
  | zero => exact walkFrom_vacant (fun _ _ _ h => by cases h) h
  | succ n ih => exact walkFrom_vacant (fun _ _ _ h => ih h) h

end walks

/-! Paths -/

/-- A path text that the system takes. -/
structure Usable (p : Path) : Prop where
  ne_empty : p ≠ ""
  no_nul : p.toList.contains (Char.ofNat 0) = false
  short : (utf8 p).length < maxPath

section paths

variable {d : Disk} {l : Lookup} {p : Path} {found : Found} {cs : List Path.Component} {s : String}
  {A : Place → Prop} {m : Nat} {dir : Place}

/-- All steps of a path lead from the working directory to `there`. -/
abbrev LeadsTo (d : Disk) (A : Place → Prop) (p : Path) (m : Nat) (there : Place) : Prop :=
  d.Leads A maxLinks d.workingDir (Path.steps p) m there

theorem find_of_usable (h : Usable p) (d : Disk) (l : Lookup) :
    d.find l p = d.walk l maxLinks (Path.endsInSlash p) d.workingDir (Path.steps p) := by
  rw [find, findFrom, if_neg h.ne_empty, h.no_nul, if_neg Bool.false_ne_true,
    if_neg (Nat.not_le.2 h.short)]

/-- Why a path is not looked up at all. -/
theorem find_cases (d : Disk) (l : Lookup) (p : Path) :
    Usable p ∨ p = "" ∧ d.find l p = .error .notFound ∨ d.find l p = .error .nulInPath ∨
      d.find l p = .error .nameTooLong := by
  unfold find findFrom
  split
  · next he => exact .inr (.inl ⟨he, rfl⟩)
  · next hne =>
    split
    · exact .inr (.inr (.inl rfl))
    · next hnul =>
      split
      · exact .inr (.inr (.inr rfl))
      · next hlong => exact .inl ⟨hne, by simpa using hnul, Nat.lt_of_not_le hlong⟩

theorem usable_of_find (h : d.find l p = .ok found) : Usable p := by
  rcases d.find_cases l p with hu | ⟨-, he⟩ | he | he
  · exact hu
  all_goals
    rw [he] at h
    cases h

theorem walk_of_find (h : d.find l p = .ok found) :
    d.walk l maxLinks (Path.endsInSlash p) d.workingDir (Path.steps p) = .ok found :=
  (find_of_usable (usable_of_find h) d l).symm.trans h

/-- A walk sees what stands in the tree, and nothing else of a disk. -/
theorem walkFrom_congr {e : Disk} (hsame : ∀ q, e.get? q = d.get? q) (l : Lookup) (jump : Walk)
    (slash : Bool) (here : Place) (cs : List Path.Component) :
    walkFrom e l jump slash here cs = walkFrom d l jump slash here cs := by
  induction cs generalizing here with
  | nil => cases slash <;> rfl
  | cons c cs ih =>
    cases c with
    | root => simp only [walkFrom, ih]
    | here => simp only [walkFrom, ih]
    | up => simp only [walkFrom, ih]
    | name s =>
      cases cs with
      | nil => simp only [walkFrom, finish, hsame]
      | cons c cs => simp only [walkFrom, ih, hsame]

theorem walk_congr {e : Disk} (hsame : ∀ q, e.get? q = d.get? q) (l : Lookup) (n : Nat) :
    walk e l n = walk d l n := by
  induction n with
  | zero =>
    funext slash here cs
    exact walkFrom_congr hsame l _ slash here cs
  | succ n ih =>
    funext slash here cs
    rw [walk, walk, ih]
    exact walkFrom_congr hsame l _ slash here cs

/-- What is found does not depend on the failures that are to come. -/
@[simp] theorem find_withFaults (d : Disk) (fs : List (Option SystemError)) (l : Lookup) (p : Path) :
    find { d with faults := fs } l p = find d l p := by
  simp only [find, findFrom]
  rw [walk_congr (e := { d with faults := fs }) (d := d) (fun _ => rfl) l maxLinks]

def Found.updated (id : Nat) (f : FileData → FileData) : Found → Found
  | .node p n => .node p (n.updated id f)
  | .vacant p => .vacant p

theorem finish_updateFile {jump jump' : Walk} (d : Disk) (id : Nat) (f : FileData → FileData)
    (hjump : ∀ slash here cs,
      jump' slash here cs = (jump slash here cs).map (Found.updated id f))
    (l : Lookup) (slash : Bool) (here : Place) (s : String) :
    finish (d.updateFile id f) l slash jump' here s =
      (finish d l slash jump here s).map (Found.updated id f) := by
  unfold finish
  simp only [get?_updateFile]
  split
  · rfl
  · split
    · rfl
    · cases d.get? (here ++ [s]) with
      | none => rfl
      | some n =>
        cases n with
        | dir => rfl
        | file data =>
          simp only [Option.map_some, Node.updated]
          split <;> rfl
        | link t =>
          simp only [Option.map_some, Node.updated]
          split
          · rfl
          · exact hjump _ _ _

theorem walkFrom_updateFile {jump jump' : Walk} (d : Disk) (id : Nat) (f : FileData → FileData)
    (hjump : ∀ slash here cs,
      jump' slash here cs = (jump slash here cs).map (Found.updated id f))
    (l : Lookup) (slash : Bool) (here : Place) (cs : List Path.Component) :
    walkFrom (d.updateFile id f) l jump' slash here cs =
      (walkFrom d l jump slash here cs).map (Found.updated id f) := by
  induction cs generalizing here with
  | nil => cases slash <;> rfl
  | cons c cs ih =>
    cases c with
    | root => simp only [walkFrom, ih]
    | here => simp only [walkFrom, ih]
    | up => simp only [walkFrom, ih]
    | name s =>
      cases cs with
      | nil => exact finish_updateFile d id f hjump l slash here s
      | cons c cs =>
        simp only [walkFrom, ih, hjump, get?_updateFile]
        split
        · rfl
        · cases d.get? (here ++ [s]) with
          | none => rfl
          | some n => cases n <;> rfl

theorem walk_updateFile (d : Disk) (id : Nat) (f : FileData → FileData) (l : Lookup) (n : Nat)
    (slash : Bool) (here : Place) (cs : List Path.Component) :
    walk (d.updateFile id f) l n slash here cs =
      (walk d l n slash here cs).map (Found.updated id f) := by
  rw [walk_eq, walk_eq]
  induction n generalizing slash here cs with
  | zero =>
    refine walkFrom_updateFile d id f (fun slash here cs => ?_) l slash here cs
    rfl
  | succ n ih =>
    refine walkFrom_updateFile d id f (fun slash here cs => ?_) l slash here cs
    rw [jumpAt, jumpAt, walk_eq, walk_eq]
    exact ih slash here cs

/-- A file that changes is found where it was. -/
theorem find_updateFile (d : Disk) (id : Nat) (f : FileData → FileData) (l : Lookup) (p : Path) :
    find (d.updateFile id f) l p = (find d l p).map (Found.updated id f) := by
  unfold find findFrom
  split
  · rfl
  · split
    · rfl
    · split
      · rfl
      · exact walk_updateFile d id f l _ _ _ _

theorem isFile_updateFile (d : Disk) (id : Nat) (f : FileData → FileData) (p : Path) :
    isFile (d.updateFile id f) p = isFile d p := by
  unfold isFile node?
  rw [find_updateFile]
  rcases d.find .through p with _ | ⟨_, _ | _ | _⟩ | _ <;> rfl

theorem find_entry_cases (hp : Path.steps p = cs ++ [.name s]) (h : d.find .entry p = .ok found) :
    ∃ m dir, d.Leads Anywhere maxLinks d.workingDir cs m dir ∧ (utf8 s).length ≤ maxName ∧
      found = match d.get? (dir ++ [s]) with
        | none => .vacant (dir ++ [s])
        | some nd => .node (dir ++ [s]) nd := by
  have hw := walk_of_find h
  rw [hp] at hw
  exact walk_entry_cases hw

theorem find_entry_eq (hu : Usable p) (hp : Path.steps p = cs ++ [.name s])
    (hl : d.Leads A maxLinks d.workingDir cs m dir) (hs : (utf8 s).length ≤ maxName) :
    d.find .entry p =
      .ok (match d.get? (dir ++ [s]) with
        | none => .vacant (dir ++ [s])
        | some nd => .node (dir ++ [s]) nd) := by
  rw [find_of_usable hu, hp, hl.walk_append (by simp), walk_entry_last d m _ hs]

/-- Where the last name of a path would stand, a look-up never misses what is above it. -/
theorem find_entry_ne_notFound (hp : Path.steps p = cs ++ [.name s])
    (hl : d.Leads A maxLinks d.workingDir cs m dir) : d.find .entry p ≠ .error .notFound := by
  rcases d.find_cases .entry p with hu | ⟨rfl, -⟩ | he | he
  · by_cases hs : (utf8 s).length ≤ maxName
    · rw [find_entry_eq hu hp hl hs]
      exact nofun
    · rw [find_of_usable hu, hp, hl.walk_append (by simp), walk_last, finish, if_neg (by simp),
        if_pos (Nat.lt_of_not_le hs)]
      exact nofun
  · exact absurd hp.symm (List.append_ne_nil_of_right_ne_nil cs (List.cons_ne_nil _ _))
  · rw [he]
    exact nofun
  · rw [he]
    exact nofun

theorem isDir_iff : d.isDir p = true ↔ Usable p ∧ ∃ m there, d.LeadsTo Anywhere p m there := by
  unfold isDir node?
  constructor
  · intro h
    split at h
    · next place n hf =>
      have hn : n = .dir := by simpa using h
      subst hn
      rcases walk_through_cases (walk_of_find hf) with ⟨-, m, hl⟩ | ⟨f, _, _, hn, -⟩
      · exact ⟨usable_of_find hf, m, place, hl⟩
      · cases hn
    · simp at h
  · rintro ⟨hu, m, there, hl⟩
    rw [find_of_usable hu, hl.walk_through]
    rfl

/-- A file is found where a path ends. -/
theorem isFile_cases (h : d.isFile p = true) :
    ∃ f dir s, d.get? (dir ++ [s]) = some (.file f) ∧
      d.Ends Anywhere maxLinks d.workingDir (Path.steps p) dir s := by
  unfold isFile node? at h
  split at h
  · next f hf =>
    split at hf
    · next place n hfind =>
      cases hf
      rcases walk_through_cases (walk_of_find hfind) with ⟨hn, -⟩ | ⟨f', dir, s, hn, rfl, hd, he⟩
      · cases hn
      · cases hn
        exact ⟨f, dir, s, hd, he⟩
    · cases hf
  · cases h

/-- Nothing is missing on a way that leads somewhere. -/
theorem LeadsTo.not_vacant {q : Path} {place there : Place} (h : d.LeadsTo A p m there)
    (hq : Path.steps q <+: Path.steps p) : d.find .entry q ≠ .ok (.vacant place) := by
  intro hf
  obtain ⟨as, s, _, dir, has, hl, rfl, hv, -⟩ := walk_entry_vacant (walk_of_find hf)
  obtain ⟨rest, hrest⟩ := hq
  rw [LeadsTo, ← hrest, has] at h
  obtain ⟨_, _, hfirst, -⟩ := h.split
  obtain ⟨_, _, hinit, hlast⟩ := hfirst.split
  obtain ⟨rfl, rfl⟩ := hl.unique hinit
  rcases hlast.cases_head with he | ⟨_, hstep, -⟩
  · cases he
  · cases hstep with
    | down _ _ hd => rw [hv] at hd; cases hd
    | link _ _ hd => rw [hv] at hd; cases hd

/-- The last name of a path that is made may be free, but nothing before it is. -/
theorem LeadsTo.vacant_eq {q : Path} {place : Place} (h : d.LeadsTo A q m dir)
    (hp : Path.steps p = Path.steps q ++ [.name s]) {r : Path}
    (hr : Path.steps r <+: Path.steps p) (hf : d.find .entry r = .ok (.vacant place)) :
    place = dir ++ [s] := by
  obtain ⟨as, x, _, there, has, hl, rfl, -⟩ := walk_entry_vacant (walk_of_find hf)
  rw [hp, List.prefix_concat_iff] at hr
  rcases hr with hr | hr
  · rw [has] at hr
    obtain ⟨rfl, hx⟩ := List.append_inj' hr rfl
    cases hx
    obtain ⟨-, rfl⟩ := h.unique hl
    rfl
  · exact absurd hf (h.not_vacant hr)

/-- A path leads to a directory over at most `links` links. -/
def Reaches (d : Disk) (links : Nat) (p : Path) (place : Place) : Prop :=
  d.walk .through links (Path.endsInSlash p) d.workingDir (Path.steps p) = .ok (.node place .dir)

instance (d : Disk) (n : Nat) (p : Path) (place : Place) : Decidable (d.Reaches n p place) :=
  inferInstanceAs (Decidable (_ = _))

theorem Reaches.unique {n : Nat} {place place' : Place} (h : d.Reaches n p place)
    (h' : d.Reaches n p place') : place' = place := by
  unfold Reaches at h h'
  rw [h] at h'
  cases h'
  rfl

theorem reaches_iff {n : Nat} {place : Place} :
    d.Reaches n p place ↔ ∃ m, d.Leads Anywhere n d.workingDir (Path.steps p) m place := by
  constructor
  · intro h
    rcases walk_through_cases h with ⟨-, m, hl⟩ | ⟨_, _, _, hn, -⟩
    · exact ⟨m, hl⟩
    · cases hn
  · rintro ⟨m, hl⟩
    exact hl.walk_through _

theorem Reaches.links_left {n : Nat} {place there : Place} (h : d.Reaches n p place)
    (hn : n ≤ maxLinks) (hl : d.LeadsTo A p m there) : maxLinks - n ≤ m := by
  obtain ⟨k, hk⟩ := reaches_iff.1 h
  have hshift := hk.shift (j := maxLinks) (by omega)
  obtain ⟨rfl, rfl⟩ := hl.unique hshift
  have := hk.links_le
  omega

end paths

end RigWarden.Disk
