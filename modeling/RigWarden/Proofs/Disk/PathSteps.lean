import RigWarden.Disk.Operations
import RigWarden.Proofs.Text.Pieces

/-!
# The steps of a path

Joining paths appends their steps, and the steps of a parent are the first steps of its path.
-/

namespace RigWarden.Path

open Text

/-- A name that stands for itself in a path. -/
structure Plain (s : String) : Prop where
  no_slash : '/' ∉ s.toList
  names : Component.ofPiece s.toList = some (.name s)

/-- The steps that a text describes after a slash in front, if there is one. -/
def names (cs : Chars) : List Component := (splitOn '/' cs).filterMap Component.ofPiece

@[simp] theorem names_nil : names [] = [] := rfl

theorem names_append (as bs : Chars) : names (as ++ '/' :: bs) = names as ++ names bs := by
  rw [names, splitOn_append_sep, List.filterMap_append]
  rfl

theorem names_slash (cs : Chars) : names ('/' :: cs) = names cs := names_append [] cs

theorem names_intercalate {pieces : List Chars} (h : ∀ piece ∈ pieces, '/' ∉ piece) :
    names (['/'].intercalate pieces) = pieces.filterMap Component.ofPiece := by
  by_cases hne : pieces = []
  · subst hne
    rfl
  · rw [names, splitOn_intercalate hne h]

theorem steps_eq (p : Path) :
    steps p = (if isAbsolute p then [.root] else []) ++ names p.toList := by
  unfold steps names
  split <;> rfl

/-- A path goes to the root with its first step only. -/
theorem root_notMem_of_steps {p : Path} {c : Component} {cs rest : List Component}
    (h : steps p = c :: cs ++ rest) : .root ∉ rest := by
  have hnames : .root ∉ names p.toList := fun hmem => by
    obtain ⟨piece, -, hof⟩ := List.mem_filterMap.1 hmem
    unfold Component.ofPiece at hof
    split at hof
    · cases hof
    · split at hof
      · cases hof
      · split at hof <;> cases hof
  intro hroot
  have hsuffix : rest <:+ names p.toList := by
    rw [steps_eq] at h
    split at h
    · exact ⟨cs, (List.cons.inj h).2.symm⟩
    · exact ⟨c :: cs, h.symm⟩
  exact hnames (hsuffix.mem hroot)

theorem plain_of_mem_steps {p : Path} {s : String} (h : .name s ∈ steps p) : Plain s := by
  rw [steps_eq, List.mem_append] at h
  have hmem : .name s ∈ names p.toList := h.resolve_left fun hr => by
    split at hr <;> simp at hr
  obtain ⟨piece, hp, hof⟩ := List.mem_filterMap.1 hmem
  have hs : s.toList = piece := by
    unfold Component.ofPiece at hof
    split at hof
    · cases hof
    · split at hof
      · cases hof
      · split at hof
        · cases hof
        · cases hof
          simp
  exact ⟨hs ▸ notMem_of_mem_splitOn hp, hs ▸ hof⟩

/-- The first character that is no slash makes a path relative. -/
theorem isAbsolute_iff {p : Path} : isAbsolute p = true ↔ ∃ cs, p.toList = '/' :: cs := by
  unfold isAbsolute
  rw [decide_eq_true_eq]
  cases p.toList with
  | nil => simp
  | cons c cs => simp

theorem toList_join (base : Path) {child : Path} (h : isAbsolute child = false) :
    (join base child).toList = base.toList ++ child.toList ∧
        (base = "" ∨ ∃ cs, base.toList = cs ++ ['/']) ∨
      (join base child).toList = base.toList ++ '/' :: child.toList ∧ base ≠ "" := by
  unfold join
  rw [h, if_neg Bool.false_ne_true]
  split
  · next hb =>
    refine .inl ⟨by simp, hb.imp_right fun hlast => ?_⟩
    exact List.getLast?_eq_some_iff.1 hlast
  · next hb => exact .inr ⟨by simp, fun he => hb (.inl he)⟩

theorem isAbsolute_join (base : Path) {child : Path} (h : isAbsolute child = false) :
    isAbsolute (join base child) = isAbsolute base := by
  by_cases hb : base = ""
  · have hchild : join base child = child := by simp [join, h, hb]
    rw [hchild, h, hb]
    rfl
  · have hne : base.toList ≠ [] := fun hnil => hb (by simpa using hnil)
    obtain ⟨c, cs, hcs⟩ := List.exists_cons_of_ne_nil hne
    unfold isAbsolute
    rcases toList_join base h with ⟨he, -⟩ | ⟨he, -⟩ <;> simp [he, hcs]

theorem steps_join {base child : Path} (h : isAbsolute child = false) :
    steps (join base child) = steps base ++ names child.toList := by
  have habs := isAbsolute_join base h
  rw [steps_eq, steps_eq, habs, List.append_assoc]
  congr 1
  rcases toList_join base h with ⟨he, rfl | ⟨cs, hcs⟩⟩ | ⟨he, -⟩
  · simp [he]
  · rw [he, hcs, List.append_assoc, List.singleton_append, names_append, names_append]
    simp
  · rw [he, names_append]

theorem Plain.isAbsolute {s : String} (h : Plain s) : isAbsolute s = false := by
  rw [Bool.eq_false_iff, ne_eq, isAbsolute_iff]
  rintro ⟨cs, hcs⟩
  exact h.no_slash (hcs ▸ List.mem_cons_self)

theorem Plain.names_toList {s : String} (h : Plain s) : Path.names s.toList = [.name s] := by
  rw [Path.names, splitOn_of_notMem h.no_slash, List.filterMap_cons_some h.names]
  rfl

theorem steps_join_plain (base : Path) {s : String} (h : Plain s) :
    steps (join base s) = steps base ++ [.name s] := by
  rw [steps_join h.isAbsolute, h.names_toList]

theorem Plain.ne_nil {s : String} (h : Plain s) : s.toList ≠ [] := fun hnil => by
  have hn := h.names
  rw [hnil] at hn
  cases hn

theorem exists_intercalate_cons (piece : Chars) (pieces : List Chars) :
    ∃ rest, ['/'].intercalate (piece :: pieces) = piece ++ rest := by
  cases pieces with
  | nil => exact ⟨[], by rw [List.intercalate_singleton, List.append_nil]⟩
  | cons next pieces =>
    exact ⟨['/'] ++ ['/'].intercalate (next :: pieces), by
      rw [List.intercalate_cons_cons, List.append_assoc]⟩

theorem filterMap_plain {ns : List String} (h : ∀ s ∈ ns, Plain s) :
    (ns.map String.toList).filterMap Component.ofPiece = ns.map .name := by
  induction ns with
  | nil => rfl
  | cons s ns ih =>
    rw [List.map_cons, List.filterMap_cons_some (h s List.mem_cons_self).names,
      ih fun r hr => h r (List.mem_cons_of_mem _ hr), List.map_cons]

theorem toList_intercalate_slash (ns : List String) :
    ("/".intercalate ns).toList = ['/'].intercalate (ns.map String.toList) := by
  rw [String.toList_intercalate]
  rfl

/-- What begins with a plain name has no slash in front. -/
theorem isAbsolute_append {s : String} (h : Plain s) {p : Path} {cs : Chars}
    (hp : p.toList = s.toList ++ cs) : Path.isAbsolute p = false := by
  obtain ⟨c, rest, hc⟩ := List.exists_cons_of_ne_nil h.ne_nil
  rw [Bool.eq_false_iff, ne_eq, isAbsolute_iff, hp, hc]
  rintro ⟨more, hmore⟩
  rw [List.cons_append, List.cons.injEq] at hmore
  exact h.no_slash (hc ▸ hmore.1 ▸ List.mem_cons_self)

theorem isAbsolute_intercalate {ns : List String} (hne : ns ≠ []) (h : ∀ s ∈ ns, Plain s) :
    Path.isAbsolute ("/".intercalate ns) = false := by
  obtain ⟨s, rest, rfl⟩ := List.exists_cons_of_ne_nil hne
  obtain ⟨more, hmore⟩ := exists_intercalate_cons s.toList (rest.map String.toList)
  have hjoined : ("/".intercalate (s :: rest)).toList = s.toList ++ more := by
    rw [toList_intercalate_slash, List.map_cons, hmore]
  exact isAbsolute_append (h s List.mem_cons_self) hjoined

/-- Names that are joined by slashes are the steps of the path that they make. -/
theorem steps_join_intercalate (base : Path) {ns : List String} (hne : ns ≠ [])
    (h : ∀ s ∈ ns, Plain s) :
    steps (join base ("/".intercalate ns)) = steps base ++ ns.map .name := by
  rw [steps_join (isAbsolute_intercalate hne h), toList_intercalate_slash, names_intercalate,
    filterMap_plain h]
  · intro piece hp
    obtain ⟨s, hs, rfl⟩ := List.mem_map.1 hp
    exact (h s hs).no_slash

/-! Parents -/

theorem prefix_dropIdle (pieces : List Chars) : dropIdle pieces <+: pieces := by
  have h := List.reverse_prefix.2
    (List.dropWhile_suffix (l := pieces.reverse)
      fun piece => Component.ofPiece piece == none || piece == ['.'])
  rwa [List.reverse_reverse] at h

theorem names_prefix {pieces : List Chars} {cs : Chars} (h : pieces <+: splitOn '/' cs) :
    names (['/'].intercalate pieces) <+: names cs := by
  rw [names_intercalate fun piece hp => notMem_of_mem_splitOn (h.subset hp)]
  exact h.filterMap _

theorem head_cases (cs : Chars) :
    (∃ rest, cs = '/' :: rest ∧ head cs = ['/']) ∨
    (cs = ['.'] ∨ ∃ rest, cs = '.' :: '/' :: rest) ∧ head cs = ['.'] ∨
    cs.head? ≠ some '/' ∧ head cs = [] := by
  unfold head
  split
  · exact .inl ⟨_, rfl, rfl⟩
  · exact .inr (.inl ⟨.inl rfl, rfl⟩)
  · exact .inr (.inl ⟨.inr ⟨_, rfl⟩, rfl⟩)
  · next hslash _ _ =>
    refine .inr (.inr ⟨fun hh => ?_, rfl⟩)
    cases cs with
    | nil => cases hh
    | cons c cs =>
      cases hh
      exact hslash cs rfl

/-- Leaving out pieces at the end puts no slash in front. -/
theorem head?_intercalate_ne {pieces : List Chars} {cs : Chars} (hcs : cs.head? ≠ some '/')
    (h : pieces <+: splitOn '/' cs) : (['/'].intercalate pieces).head? ≠ some '/' := by
  cases pieces with
  | nil => simp
  | cons piece pieces =>
    cases cs with
    | nil =>
      rw [splitOn, List.cons_prefix_cons, List.prefix_nil] at h
      simp [h.1, h.2]
    | cons c cs =>
      have hc : c ≠ '/' := fun he => hcs (by rw [he]; rfl)
      obtain ⟨first, others, hs⟩ := List.exists_cons_of_ne_nil (splitOn_ne_nil '/' cs)
      rw [splitOn_cons_of_ne hc hs, List.cons_prefix_cons] at h
      obtain ⟨rest, hrest⟩ := exists_intercalate_cons piece pieces
      rw [hrest, h.1]
      exact fun he => hc (Option.some.inj he)

theorem names_dot_prefix {pieces : List Chars} {cs : Chars} (hcs : cs = [] ∨ ∃ r, cs = '/' :: r)
    (h : pieces <+: splitOn '/' cs) :
    names ('.' :: ['/'].intercalate pieces) <+: names ('.' :: cs) := by
  have hdot : ∀ r, names ('.' :: '/' :: r) = .here :: names r := fun r => names_append ['.'] r
  have hhere : names ['.'] = [.here] := rfl
  rcases hcs with rfl | ⟨r, rfl⟩
  · have hnil : ['/'].intercalate pieces = [] := by
      cases pieces with
      | nil => rfl
      | cons piece pieces =>
        rw [splitOn, List.cons_prefix_cons, List.prefix_nil] at h
        rw [h.1, h.2]
        rfl
    refine ⟨[], ?_⟩
    rw [hnil, List.append_nil]
  · rw [splitOn_cons_self] at h
    rw [hdot]
    cases pieces with
    | nil => exact hhere ▸ (List.prefix_append [_] (names r))
    | cons piece pieces =>
      rw [List.cons_prefix_cons] at h
      rw [h.1]
      cases pieces with
      | nil => exact hhere ▸ (List.prefix_append [_] (names r))
      | cons next pieces =>
        rw [List.intercalate_cons_cons, List.nil_append, List.singleton_append, hdot,
          List.cons_prefix_cons]
        exact ⟨rfl, names_prefix h.2⟩

/-- The text of a path whose last pieces were left out. -/
theorem steps_prefix {p q : Path} (pieces : List Chars)
    (hpieces : pieces <+: splitOn '/' (p.toList.drop (head p.toList).length))
    (hq : q.toList = head p.toList ++ ['/'].intercalate pieces) : steps q <+: steps p := by
  have habs : ∀ r : Path, isAbsolute r = decide (r.toList.head? = some '/') := fun _ => rfl
  rw [steps_eq, steps_eq, habs, habs, hq]
  rcases head_cases p.toList with ⟨rest, hp, hh⟩ | ⟨hp, hh⟩ | ⟨hp, hh⟩
  · rw [hh, hp] at hpieces
    rw [hh, hp, List.singleton_append, names_slash, names_slash]
    simpa using names_prefix hpieces
  · rw [hh] at hpieces ⊢
    obtain ⟨cs, hcs, hshape⟩ : ∃ cs, p.toList = '.' :: cs ∧ (cs = [] ∨ ∃ r, cs = '/' :: r) :=
      hp.elim (fun h => ⟨[], h, .inl rfl⟩) fun ⟨r, h⟩ => ⟨'/' :: r, h, .inr ⟨r, rfl⟩⟩
    rw [hcs] at hpieces ⊢
    simpa using names_dot_prefix hshape hpieces
  · rw [hh] at hpieces ⊢
    rw [List.nil_append, decide_eq_false hp, decide_eq_false (head?_intercalate_ne hp hpieces)]
    exact names_prefix hpieces

theorem steps_parent {p q : Path} (h : parent? p = some q) : steps q <+: steps p := by
  unfold parent? at h
  simp only at h
  split at h
  · have hq := (Option.some.inj h).symm
    refine steps_prefix (dropIdle (dropIdle _).dropLast) ?_ (by rw [hq, String.toList_ofList])
    exact (prefix_dropIdle _).trans ((List.dropLast_prefix _).trans (prefix_dropIdle _))
  · split at h
    · cases h
      exact List.nil_prefix
    · cases h

theorem steps_getD_parent (p : Path) : steps ((parent? p).getD "") <+: steps p := by
  cases h : parent? p with
  | none => exact List.nil_prefix
  | some q => exact steps_parent h

theorem steps_of_mem_ancestors {n : Nat} {p q : Path} (h : q ∈ Disk.ancestors n p) :
    steps q <+: steps p := by
  induction n generalizing p with
  | zero =>
    rw [Disk.ancestors, List.mem_singleton] at h
    exact h ▸ List.prefix_refl _
  | succ n ih =>
    rw [Disk.ancestors, List.mem_cons] at h
    rcases h with rfl | h
    · exact List.prefix_refl _
    · cases hp : parent? p with
      | none => simp [hp] at h
      | some r =>
        rw [hp] at h
        exact (ih h).trans (steps_parent hp)

theorem dropIdle_concat {s : String} (h : Plain s) (pieces : List Chars) :
    dropIdle (pieces ++ [s.toList]) = pieces ++ [s.toList] := by
  have hdot : s.toList ≠ ['.'] := fun he => by
    have hn := h.names
    rw [he] at hn
    cases hn
  simp [dropIdle, h.names, hdot]

theorem intercalate_splitOn (cs : Chars) : ['/'].intercalate (splitOn '/' cs) = cs := by
  induction cs with
  | nil => rfl
  | cons c cs ih =>
    obtain ⟨piece, pieces, hs⟩ := List.exists_cons_of_ne_nil (splitOn_ne_nil '/' cs)
    by_cases hc : c = '/'
    · rw [hc, splitOn_cons_self, hs, List.intercalate_cons_cons, List.nil_append,
        List.singleton_append, ← hs, ih]
    · rw [splitOn_cons_of_ne hc hs]
      rw [hs] at ih
      cases pieces with
      | nil =>
        rw [List.intercalate_singleton] at ih ⊢
        rw [ih]
      | cons next pieces =>
        rw [List.intercalate_cons_cons] at ih ⊢
        rw [← ih]
        rfl

/-- A name is at the end of a path that was joined with it, after a slash if after anything. -/
theorem toList_join_plain (base : Path) {a : String} (ha : Plain a) :
    (join base a).toList = a.toList ∨ ∃ ds, (join base a).toList = ds ++ '/' :: a.toList := by
  rcases toList_join base ha.isAbsolute with ⟨he, rfl | ⟨ds, hds⟩⟩ | ⟨he, -⟩
  · exact .inl (by simpa using he)
  · exact .inr ⟨ds, by simp [he, hds]⟩
  · exact .inr ⟨base.toList, he⟩

theorem toList_join_join (base : Path) {a b : String} (ha : Plain a) (hb : isAbsolute b = false) :
    (join (join base a) b).toList = (join base a).toList ++ '/' :: b.toList := by
  have hlast : ∀ cs ds : Chars, cs ++ ['/'] ≠ ds ++ a.toList := fun cs ds he => by
    obtain ⟨init, c, hc⟩ := (List.eq_nil_or_concat a.toList).resolve_left ha.ne_nil
    rw [hc, List.concat_eq_append, ← List.append_assoc] at he
    obtain rfl : '/' = c := (List.cons.inj (List.append_inj' he rfl).2).1
    exact ha.no_slash (hc ▸ by simp)
  obtain ⟨ds, hds⟩ : ∃ ds, (join base a).toList = ds ++ a.toList := by
    rcases toList_join_plain base ha with he | ⟨ds, he⟩
    · exact ⟨[], he⟩
    · exact ⟨ds ++ ['/'], by simp [he]⟩
  rcases toList_join (join base a) hb with ⟨-, he | ⟨cs, hcs⟩⟩ | ⟨he, -⟩
  · rw [he] at hds
    exact absurd (List.append_eq_nil_iff.1 hds.symm).2 ha.ne_nil
  · exact absurd (hcs.symm.trans hds) (hlast cs ds)
  · exact he

/-- What a path with a plain last name starts with, and the pieces after that. -/
theorem pieces_join (base : Path) {a : String} (ha : Plain a) (bs : Chars) :
    ∃ start rest pieces, (join base a).toList = start ++ rest ∧
      head ((join base a).toList ++ '/' :: bs) = start ∧ splitOn '/' rest = pieces ++ [a.toList] := by
  have hsplit : ∀ cs, splitOn '/' (cs ++ '/' :: a.toList) = splitOn '/' cs ++ [a.toList] := fun cs => by
    rw [splitOn_append_sep, splitOn_of_notMem ha.no_slash]
  have hown : splitOn '/' a.toList = [] ++ [a.toList] := splitOn_of_notMem ha.no_slash
  rcases toList_join_plain base ha with he | ⟨ds, he⟩ <;> rw [he]
  · refine ⟨[], a.toList, [], rfl, ?_, hown⟩
    obtain ⟨c, cs, hc⟩ := List.exists_cons_of_ne_nil ha.ne_nil
    have hno : ∀ x ∈ c :: cs, x ≠ '/' := fun x hx he => ha.no_slash (hc ▸ he ▸ hx)
    have hdot : c :: cs ≠ ['.'] := fun he => by
      have hn := ha.names
      rw [hc, he] at hn
      cases hn
    rw [hc]
    rcases head_cases ((c :: cs) ++ '/' :: bs) with ⟨rest, hp, -⟩ | ⟨hp | ⟨rest, hp⟩, -⟩ | ⟨-, hh⟩
    · exact absurd (List.cons.inj hp).1 (hno c List.mem_cons_self)
    · simp at hp
    · cases cs with
      | nil => exact absurd (by rw [(List.cons.inj hp).1]) hdot
      | cons x cs =>
        have hx := (List.cons.inj (List.cons.inj hp).2).1
        exact absurd hx (hno x (by simp))
    · exact hh
  · rw [List.append_assoc, List.cons_append]
    rcases head_cases (ds ++ '/' :: (a.toList ++ '/' :: bs)) with
      ⟨rest, hp, hh⟩ | ⟨hp | ⟨rest, hp⟩, hh⟩ | ⟨-, hh⟩
    · cases ds with
      | nil => exact ⟨['/'], a.toList, [], rfl, hh, hown⟩
      | cons c ds =>
        obtain ⟨rfl, -⟩ := List.cons.inj hp
        exact ⟨['/'], ds ++ '/' :: a.toList, _, rfl, hh, hsplit ds⟩
    · cases ds <;> simp at hp
    · cases ds with
      | nil => simp at hp
      | cons c ds =>
        obtain ⟨rfl, -⟩ := List.cons.inj hp
        exact ⟨['.'], ds ++ '/' :: a.toList, _, rfl, hh, hsplit ds⟩
    · exact ⟨[], ds ++ '/' :: a.toList, _, rfl, hh, hsplit ds⟩

/-- The parent of a path is what its last name was joined to. -/
theorem parent?_join (base : Path) {a b : String} (ha : Plain a) (hb : Plain b) :
    parent? (join (join base a) b) = some (join base a) := by
  obtain ⟨start, rest, pieces, htext, hhead, hsplit⟩ := pieces_join base ha b.toList
  have hwhole := toList_join_join base ha hb.isAbsolute
  have hpieces : splitOn '/' (((join base a).toList ++ '/' :: b.toList).drop start.length) =
      pieces ++ [a.toList] ++ [b.toList] := by
    rw [htext, List.append_assoc, List.drop_left, splitOn_append_sep, hsplit,
      splitOn_of_notMem hb.no_slash]
  unfold parent?
  simp only [hwhole, hhead, hpieces, dropIdle_concat hb, List.dropLast_concat, dropIdle_concat ha]
  rw [if_pos (by simp), ← hsplit, intercalate_splitOn, ← htext, String.ofList_toList]

/-! Paths below a directory -/

/-- The path of these names below a directory. -/
def below (base : Path) (ns : List String) : Path := ns.foldl join base

@[simp] theorem below_nil (base : Path) : below base [] = base := rfl

theorem below_cons (base : Path) (a : String) (ns : List String) :
    below base (a :: ns) = below (join base a) ns := rfl

theorem below_concat (base : Path) (ns : List String) (s : String) :
    below base (ns ++ [s]) = join (below base ns) s := by
  rw [below, List.foldl_append]
  rfl

theorem steps_below (base : Path) {ns : List String} (h : ∀ s ∈ ns, Plain s) :
    steps (below base ns) = steps base ++ ns.map .name := by
  induction ns generalizing base with
  | nil => simp
  | cons a ns ih =>
    rw [below_cons, ih _ fun s hs => h s (List.mem_cons_of_mem _ hs),
      steps_join_plain base (h a List.mem_cons_self), List.map_cons, List.append_assoc]
    rfl

theorem join_join (base : Path) {a rest : String} (ha : Plain a) (hr : isAbsolute rest = false) :
    join (join base a) rest = join base (a ++ "/" ++ rest) := by
  have habs : isAbsolute (a ++ "/" ++ rest) = false :=
    @isAbsolute_append a ha _ ('/' :: rest.toList) (by simp)
  refine String.toList_inj.1 ?_
  rw [toList_join_join base ha hr, join, join, habs, ha.isAbsolute]
  simp only [Bool.false_eq_true, if_false]
  split <;> simp

/-- Names that are joined by slashes are joined one after the other. -/
theorem join_intercalate (base : Path) {ns : List String} (hne : ns ≠ []) (h : ∀ s ∈ ns, Plain s) :
    join base ("/".intercalate ns) = below base ns := by
  induction ns generalizing base with
  | nil => exact absurd rfl hne
  | cons a ns ih =>
    have ha := h a List.mem_cons_self
    have hns : ∀ s ∈ ns, Plain s := fun s hs => h s (List.mem_cons_of_mem _ hs)
    by_cases hnil : ns = []
    · subst hnil
      rw [below_cons, below_nil]
      rfl
    · have hsplit : "/".intercalate (a :: ns) = a ++ "/" ++ "/".intercalate ns := by
        obtain ⟨b, ns, rfl⟩ := List.exists_cons_of_ne_nil hnil
        refine String.toList_inj.1 ?_
        simp
      rw [hsplit, ← join_join base ha (isAbsolute_intercalate hnil hns), ih _ hnil hns, below_cons]

theorem parent?_below (base : Path) {a s : String} {ns : List String} (ha : Plain a)
    (hns : ∀ x ∈ ns, Plain x) (hs : Plain s) :
    parent? (below base (a :: ns ++ [s])) = some (below base (a :: ns)) := by
  rcases List.eq_nil_or_concat ns with rfl | ⟨ns, b, rfl⟩
  · exact parent?_join base ha hs
  · rw [List.concat_eq_append] at hns ⊢
    rw [below_concat, ← List.cons_append, below_concat]
    exact parent?_join _ (hns b (by simp)) hs

end RigWarden.Path
