import IndraDB.Traversal.Loop

/-! The pages that a chain of range queries returns, apart from any run of
`map`. Over a static graph they are the consecutive slices of its matching
vertices. Over a graph that changes between queries their ids still increase
strictly, and a vertex present at every query lies in one of them. Under an
inclusive start bound each page begins with the last vertex of the page before
it. -/
namespace IndraDB.Traversal

/-- `pages` answer successive range queries of page size `limit` and type `t`:
the first starts at `c`, each next one at the cursor the pages before it leave,
and some graph satisfying `ok` answers each. -/
def Paged (b : StartBound) (limit : Nat) (t : Option Identifier) (ok : Graph → Prop) :
    Option Uuid → List (List Vertex) → Prop
  | _, [] => True
  | c, p :: ps => (∃ g, ok g ∧ p = g.getVertices b ⟨limit, t, c⟩) ∧ Paged b limit t ok (advance c p) ps

/-- Every page but the last is full. -/
def FullButLast (limit : Nat) : List (List Vertex) → Prop
  | [] => True
  | [_] => True
  | p :: ps => limit ≤ p.length ∧ FullButLast limit ps

/-- Every page of the log was answered by some graph satisfying `ok`; errors
are allowed. -/
def AnsweredBy (b : StartBound) (ok : Graph → Prop) (log : FetchLog) : Prop :=
  ∀ x ∈ log, ∀ p, x.2 = .ok p → ∃ g, ok g ∧ p = g.getVertices b x.1

variable {m : Mapper} {b : StartBound} {ok : Graph → Prop} {t : Option Identifier} {P : Nat}

/-- The queries of a run follow the cursor, so the pages it received form a
chain of range queries. -/
theorem Chained.paged {c : Option Uuid} {log : FetchLog} (hChain : Chained m c log)
    (hAns : AnsweredBy b ok log) : Paged b m.limit m.tFilter ok c (okPages log) := by
  induction log generalizing c with
  | nil => trivial
  | cons x log ih =>
      obtain ⟨q, r⟩ := x
      have hTail : AnsweredBy b ok log := fun y hy => hAns y (List.mem_cons_of_mem _ hy)
      cases r with
      | error err => exact ih hChain.2 hTail
      | ok p =>
          obtain ⟨g, hg, hp⟩ := hAns _ (List.mem_cons_self _ _) p rfl
          exact ⟨⟨g, hg, by rw [hp, hChain.1]; rfl⟩, ih hChain.2 hTail⟩

theorem fullButLast_append {ps : List (List Vertex)} (hps : ∀ p ∈ ps, P ≤ p.length)
    (qs : List (List Vertex)) (hqs : qs.length ≤ 1) : FullButLast P (ps ++ qs) := by
  induction ps with
  | nil =>
      match qs, hqs with
      | [], _ => trivial
      | [_], _ => trivial
  | cons p ps ih =>
      have hTail := ih fun p' hp' => hps p' (List.mem_cons_of_mem _ hp')
      rw [List.cons_append]
      cases hRest : ps ++ qs with
      | nil => trivial
      | cons q rest => exact ⟨hps p (List.mem_cons_self _ _), hRest ▸ hTail⟩

/-- A page with another after it is full. -/
theorem FullButLast.full {p q : List Vertex} {ps : List (List Vertex)} :
    ∀ pre : List (List Vertex), FullButLast P (pre ++ p :: q :: ps) → P ≤ p.length
  | [], h => h.1
  | [_], h => FullButLast.full [] h.2
  | _ :: _ :: pre, h => FullButLast.full (_ :: pre) h.2

theorem okPages_full {log : FetchLog} (h : ∀ x ∈ log, FullPage m x) :
    ∀ p ∈ okPages log, m.limit ≤ p.length := by
  intro p hp
  obtain ⟨x, hx, hxp⟩ := List.mem_filterMap.mp hp
  obtain ⟨p', hp', hle⟩ := h x hx
  rw [hp'] at hxp
  cases hxp
  exact hle

theorem okPages_singleton_length_le (x : RangeVertexQuery × Except BoxError (List Vertex)) :
    (okPages [x]).length ≤ 1 := by
  obtain ⟨q, r⟩ := x
  cases r <;> simp

/-- In every reachable state, every page fetched but the last is full. -/
theorem Shape.fullButLast {log : FetchLog} {s : State} (h : Shape m log s) :
    FullButLast m.limit (okPages log) := by
  have hAll : (∀ x ∈ log, FullPage m x) → FullButLast m.limit (okPages log) := fun hFull => by
    simpa using fullButLast_append (okPages_full hFull) [] (Nat.zero_le _)
  have hLast : ∀ pre x, (∀ y ∈ pre, FullPage m y) → FullButLast m.limit (okPages (pre ++ [x])) :=
    fun pre x hFull => by
      rw [okPages_append]
      exact fullButLast_append (okPages_full hFull) _ (okPages_singleton_length_le x)
  unfold Shape at h
  split at h
  · exact hAll h
  · exact hAll h
  · obtain ⟨pre, q, p, rfl, hFull, -⟩ := h
    exact hLast pre _ hFull
  all_goals
    rcases h with ⟨hFull, -⟩ | ⟨pre, x, rfl, hFull, -⟩
    · exact hAll hFull
    · exact hLast pre x hFull

/-- No page is longer than the page size. -/
theorem Paged.length_le : ∀ {c : Option Uuid} {ps : List (List Vertex)}, Paged b P t ok c ps →
    ∀ p ∈ ps, p.length ≤ P
  | _, [], _ => by simp
  | _, _ :: _, ⟨⟨_, _, rfl⟩, hRest⟩ => by
      intro p hp
      rcases List.mem_cons.mp hp with rfl | hp
      · exact List.length_take_le _ _
      · exact Paged.length_le hRest p hp

theorem length_flatten_le {ps : List (List Vertex)} (h : ∀ p ∈ ps, p.length ≤ P) :
    ps.flatten.length ≤ ps.length * P := by
  induction ps with
  | nil => simp
  | cons p ps ih =>
      have hHead := h p (List.mem_cons_self _ _)
      have hTail := ih fun p' hp' => h p' (List.mem_cons_of_mem _ hp')
      simp only [List.flatten_cons, List.length_append, List.length_cons, Nat.succ_mul]
      omega

theorem take_eq_self_of_length_lt {l : List Vertex} (h : (l.take P).length < P) : l.take P = l :=
  List.take_of_length_le (by simp at h; omega)

theorem le_of_mem_of_getLast {l : List Vertex} {v y : Vertex} (h : l.Pairwise (·.id < ·.id))
    (hv : v ∈ l) (hy : l.getLast? = some y) : v.id ≤ y.id := by
  obtain ⟨pre, rfl⟩ := List.getLast?_eq_some_iff.mp hy
  rcases List.mem_append.mp hv with hv | hv
  · exact (List.pairwise_append.mp h).2.2 v hv y (List.mem_singleton_self _) |>.le
  · rw [List.mem_singleton.mp hv]

theorem all_admits_exclusive (c : Option Uuid) (id : Uuid) :
    c.all (StartBound.exclusive.admits · id) = true ↔ ∀ u ∈ c, u < id := by
  cases c <;> simp [StartBound.admits]

section Static

variable (g : Graph)

/-- The query at the cursor left by the first `n` matching vertices returns the
next `P` of them. -/
theorem getVertices_after_take (n : Nat) :
    g.getVertices .exclusive ⟨P, t, advance none ((g.matching t).take n)⟩ =
      ((g.matching t).drop n).take P := by
  cases hLast : ((g.matching t).take n).getLast? with
  | none =>
      rcases List.take_eq_nil_iff.mp (List.getLast?_eq_none_iff.mp hLast) with rfl | hM
      · simp [advance]
      · simp [advance, hM, hLast]
  | some x =>
      obtain ⟨pre, hpre⟩ := List.getLast?_eq_some_iff.mp hLast
      have hSplit : g.matching t = pre ++ x :: (g.matching t).drop n := by
        simpa [hpre] using (List.take_append_drop n (g.matching t)).symm
      have hSorted := g.matching_sorted t
      rw [hSplit] at hSorted
      have hc : advance none ((g.matching t).take n) = some x.id := by simp [advance, hLast]
      rw [hc, Graph.getVertices_eq]
      dsimp only
      simp only [Option.all_some, StartBound.admits]
      conv_lhs => rw [hSplit, filter_gt_of_sorted hSorted]

/-- Over a static graph the pages are the consecutive slices of the matching
vertices after the first `n`: they are a prefix of the rest, at most one more
than the full pages it holds, and when the last page is short they cover it,
the last being what remains after the full slices. -/
theorem paged_static (hP : 0 < P) : ∀ (ps : List (List Vertex)) (n : Nat),
    Paged .exclusive P t (· = g) (advance none ((g.matching t).take n)) ps → FullButLast P ps →
    ps.flatten <+: (g.matching t).drop n ∧ ps.length ≤ ((g.matching t).length - n) / P + 1 ∧
    ∀ p, ps.getLast? = some p → p.length < P →
      ps.flatten = (g.matching t).drop n ∧ ps.length = ((g.matching t).length - n) / P + 1 ∧
      p = (g.matching t).drop (n + ((g.matching t).length - n) / P * P)
  | [], _, _, _ => ⟨List.nil_prefix, by simp, fun _ hp => by simp at hp⟩
  | [p], n, ⟨⟨_, rfl, hp⟩, _⟩, _ => by
      rw [getVertices_after_take] at hp
      subst hp
      refine ⟨by simpa using List.take_prefix _ _, by simp, fun p hLast hShort => ?_⟩
      simp only [List.getLast?_singleton, Option.some.injEq] at hLast
      subst hLast
      have hEq := take_eq_self_of_length_lt hShort
      have hLt : (g.matching t).length - n < P := by simpa [hEq] using hShort
      simp [hEq, Nat.div_eq_of_lt hLt]
  | p :: q :: ps, n, ⟨⟨_, rfl, hp⟩, hRest⟩, ⟨hFull, hFulls⟩ => by
      rw [getVertices_after_take] at hp
      subst hp
      have hRoom : P ≤ (g.matching t).length - n := by simpa using hFull
      have hCursor : advance (advance none ((g.matching t).take n)) (((g.matching t).drop n).take P) =
          advance none ((g.matching t).take (n + P)) := by
        rw [← advance_append, List.take_add]
      rw [hCursor] at hRest
      obtain ⟨hPre, hLen, hLast⟩ := paged_static hP (q :: ps) (n + P) hRest hFulls
      have hDiv := Nat.div_eq_sub_div hP hRoom
      have hSub : (g.matching t).length - (n + P) = (g.matching t).length - n - P := by omega
      rw [hSub] at hLen hLast
      have hDrop : (g.matching t).drop n = ((g.matching t).drop n).take P ++ (g.matching t).drop (n + P) := by
        rw [← List.drop_drop, List.take_append_drop]
      refine ⟨?_, by simp only [List.length_cons] at hLen ⊢; omega, fun p' hp' hShort => ?_⟩
      · have hApp := (List.prefix_append_right_inj (((g.matching t).drop n).take P)).mpr hPre
        rwa [← hDrop, ← List.flatten_cons] at hApp
      · obtain ⟨hAll, hCount, hEnd⟩ := hLast p' (by simpa using hp') hShort
        refine ⟨by rw [List.flatten_cons, hAll, ← hDrop], by simp only [List.length_cons] at hCount ⊢; omega, ?_⟩
        rw [hEnd, hDiv, Nat.succ_mul]
        congr 1
        omega

end Static

section Changing

variable {c : Option Uuid} {p : List Vertex} {x : Vertex}

/-- The cursor after a page is at least the id of each vertex on it. -/
theorem le_advance (c : Option Uuid) (hSorted : p.Pairwise (·.id < ·.id)) (hx : x ∈ p) :
    ∃ u ∈ advance c p, x.id ≤ u := by
  obtain ⟨y, hy⟩ := Option.ne_none_iff_exists'.mp (mt List.getLast?_eq_none_iff.mp (List.ne_nil_of_mem hx))
  exact ⟨y.id, by simp [advance, hy], le_of_mem_of_getLast hSorted hx hy⟩

/-- The cursor after a page is the cursor before it or the id of one of its
vertices. -/
theorem mem_advance {u : Uuid} (hu : u ∈ advance c p) : u ∈ c ∨ ∃ y ∈ p, y.id = u := by
  unfold advance at hu
  split at hu
  · exact .inr ⟨_, List.mem_of_getLast?_eq_some ‹_›, Option.mem_some_iff.mp hu⟩
  · exact .inl hu

/-- An exclusive answer holds only ids after the cursor. -/
theorem lt_of_mem_getVertices (g : Graph) {q : RangeVertexQuery} (hx : x ∈ g.getVertices .exclusive q) :
    ∀ u ∈ q.startId, u < x.id := by
  intro u hu
  have hAdmit := (g.mem_getVertices .exclusive q hx).2.2
  rw [Option.mem_def.mp hu] at hAdmit
  simpa [StartBound.admits] using hAdmit

/-- Whatever graph answers each query, the pages hold strictly increasing ids,
all after the first cursor: each query starts after every id seen so far. -/
theorem paged_sorted : ∀ {c : Option Uuid} {ps : List (List Vertex)}, Paged .exclusive P t ok c ps →
    ps.flatten.Pairwise (·.id < ·.id) ∧ ∀ v ∈ ps.flatten, ∀ u ∈ c, u < v.id
  | _, [], _ => ⟨List.Pairwise.nil, by simp⟩
  | c, _ :: _, ⟨⟨g, _, rfl⟩, hRest⟩ => by
      obtain ⟨hSorted, hAfter⟩ := paged_sorted hRest
      have hPage := g.getVertices_sorted .exclusive ⟨P, t, c⟩
      have hFirst : ∀ v ∈ g.getVertices .exclusive ⟨P, t, c⟩, ∀ u ∈ c, u < v.id :=
        fun v hv => lt_of_mem_getVertices g hv
      refine ⟨List.pairwise_append.mpr ⟨hPage, hSorted, fun v hv w hw => ?_⟩, fun v hv u hu => ?_⟩
      · obtain ⟨u, hu, hle⟩ := le_advance c hPage hv
        exact lt_of_le_of_lt hle (hAfter w hw u hu)
      · rcases List.mem_append.mp hv with hv | hv
        · exact hFirst v hv u hu
        · rcases (g.getVertices .exclusive ⟨P, t, c⟩).eq_nil_or_concat with hNil | ⟨pre, y, hy⟩
          · exact hAfter v hv u (by simpa [hNil] using hu)
          · have hCursor : advance c (g.getVertices .exclusive ⟨P, t, c⟩) = some y.id := by
              simp [advance, hy]
            calc u < y.id := hFirst y (by simp [hy]) u hu
              _ < v.id := hAfter v hv y.id (by simp [hCursor])

/-- A vertex of a sorted list missing from its first `P` comes after all of them. -/
theorem lt_of_not_mem_take {l : List Vertex} (h : l.Pairwise (·.id < ·.id)) (hx : x ∈ l)
    (hNot : x ∉ l.take P) : ∀ y ∈ l.take P, y.id < x.id := by
  rw [← List.take_append_drop P l, List.pairwise_append] at h
  rw [← List.take_append_drop P l, List.mem_append] at hx
  exact fun y hy => h.2.2 y hy x (hx.resolve_left hNot)

/-- A matching vertex that a graph holds and the cursor admits is on the page
that graph returns, or after all of it. -/
theorem mem_getVertices_or_lt (g : Graph) (hg : x ∈ g.vertices) (hx : typeMatches t x)
    (hc : ∀ u ∈ c, u < x.id) :
    x ∈ g.getVertices .exclusive ⟨P, t, c⟩ ∨ ∀ y ∈ g.getVertices .exclusive ⟨P, t, c⟩, y.id < x.id := by
  have hMem : x ∈ g.vertices.filter fun v => typeMatches t v && c.all (StartBound.exclusive.admits · v.id) := by
    simpa [List.mem_filter, hg, hx, all_admits_exclusive] using hc
  exact (em _).imp_right (lt_of_not_mem_take (g.sorted.filter _) hMem)

/-- A vertex of the queried type that every answering graph holds, and that
lies after the first cursor, is on one of the pages once a page comes back
short. Vertices inserted or deleted during the run are not covered. -/
theorem mem_paged (hx : typeMatches t x) : ∀ {c : Option Uuid} {ps : List (List Vertex)},
    Paged .exclusive P t (x ∈ ·.vertices) c ps → FullButLast P ps → (∀ u ∈ c, u < x.id) →
    ∀ p, ps.getLast? = some p → p.length < P → x ∈ ps.flatten
  | _, [], _, _, _, _, hp, _ => by simp at hp
  | c, [_], ⟨⟨g, hg, rfl⟩, _⟩, _, hc, p, hLast, hShort => by
      simp only [List.getLast?_singleton, Option.some.injEq] at hLast
      subst hLast
      rcases mem_getVertices_or_lt g hg hx hc with hIn | hLt
      · simpa using hIn
      · rw [Graph.getVertices, take_eq_self_of_length_lt hShort] at hLt ⊢
        have hMem : x ∈ g.vertices.filter fun v => typeMatches t v && c.all (StartBound.exclusive.admits · v.id) := by
          simpa [List.mem_filter, hg, hx, all_admits_exclusive] using hc
        exact absurd (hLt x hMem) (lt_irrefl _)
  | c, _ :: q :: ps, ⟨⟨g, hg, rfl⟩, hRest⟩, ⟨_, hFulls⟩, hc, p, hLast, hShort => by
      rcases mem_getVertices_or_lt g hg hx hc with hIn | hLt
      · exact List.flatten_cons .. ▸ List.mem_append_left _ hIn
      · have hc' : ∀ u ∈ advance c (g.getVertices .exclusive ⟨P, t, c⟩), u < x.id := fun u hu =>
          (mem_advance hu).elim (hc u) fun ⟨y, hy, hEq⟩ => hEq ▸ hLt y hy
        have hTail := mem_paged hx hRest hFulls hc' p (by simpa using hLast) hShort
        exact List.flatten_cons .. ▸ List.mem_append_right _ hTail

end Changing

section Inclusive

variable (g : Graph)

/-- Under an inclusive bound, the query from the id of the `j`th matching vertex
returns the `P` matching vertices from it on. -/
theorem getVertices_inclusive_at {j : Nat} {x : Vertex} (hx : (g.matching t)[j]? = some x) :
    g.getVertices .inclusive ⟨P, t, some x.id⟩ = ((g.matching t).drop j).take P := by
  obtain ⟨hj, hxj⟩ := List.getElem?_eq_some_iff.mp hx
  have hDrop : (g.matching t).drop j = x :: (g.matching t).drop (j + 1) := hxj ▸ List.drop_eq_getElem_cons hj
  have hSplit : g.matching t = (g.matching t).take j ++ x :: (g.matching t).drop (j + 1) := by
    rw [← hDrop, List.take_append_drop]
  have hSorted := g.matching_sorted t
  rw [hSplit] at hSorted
  rw [Graph.getVertices_eq]
  dsimp only
  simp only [Option.all_some, StartBound.admits]
  conv_lhs => rw [hSplit, filter_ge_of_sorted hSorted]
  rw [hDrop]

/-- Under an inclusive bound, the query from the id of a matching vertex returns
that vertex first. -/
theorem getVertices_inclusive_head {x : Vertex} (hx : x ∈ g.matching t) (hP : 0 < P) :
    (g.getVertices .inclusive ⟨P, t, some x.id⟩).head? = some x := by
  obtain ⟨j, hj⟩ := List.mem_iff_getElem?.mp hx
  rw [getVertices_inclusive_at g hj, List.head?_take, if_neg (by omega), List.head?_drop, hj]

/-- Under an inclusive bound the query after a page starts at the page's last
vertex, and returns it first. -/
theorem getVertices_next_inclusive (hP : 0 < P) (c : Option Uuid) {y : Vertex}
    (hy : (g.getVertices .inclusive ⟨P, t, c⟩).getLast? = some y) :
    (g.getVertices .inclusive ⟨P, t, advance c (g.getVertices .inclusive ⟨P, t, c⟩)⟩).head? = some y := by
  have hMem := g.mem_getVertices .inclusive ⟨P, t, c⟩ (List.mem_of_getLast?_eq_some hy)
  have hCursor : advance c (g.getVertices .inclusive ⟨P, t, c⟩) = some y.id := by simp [advance, hy]
  rw [hCursor]
  exact getVertices_inclusive_head g (List.mem_filter.mpr ⟨hMem.1, hMem.2.1⟩) hP

/-- Under an inclusive bound, each page after a nonempty one starts with the
vertex that ended it: that vertex is on both pages. -/
theorem paged_inclusive_head (hP : 0 < P) : ∀ {c : Option Uuid} {ps : List (List Vertex)},
    Paged .inclusive P t (· = g) c ps → ∀ pre p p' post, ps = pre ++ p :: p' :: post → p ≠ [] →
    p'.head? = p.getLast?
  | _, [], _, pre, _, _, _, hps, _ => by simp at hps
  | c, _ :: ps, ⟨⟨g', hg', rfl⟩, hRest⟩, [], p, p', post, hps, hp => by
      subst g'
      obtain ⟨rfl, rfl⟩ := List.cons.inj hps
      obtain ⟨y, hy⟩ := Option.ne_none_iff_exists'.mp (mt List.getLast?_eq_none_iff.mp hp)
      obtain ⟨⟨g', hg', rfl⟩, -⟩ := hRest
      subst g'
      rw [hy, getVertices_next_inclusive g hP c hy]
  | _, _ :: ps, ⟨_, hRest⟩, _ :: pre, p, p', post, hps, hp =>
      paged_inclusive_head hP hRest pre p p' post (List.cons.inj hps).2 hp

/-- Under an inclusive bound, once a page is not empty no later page is. -/
theorem paged_inclusive_ne_nil (hP : 0 < P) : ∀ {c : Option Uuid} {ps : List (List Vertex)},
    Paged .inclusive P t (· = g) c ps → g.getVertices .inclusive ⟨P, t, c⟩ ≠ [] → ∀ p ∈ ps, p ≠ []
  | _, [], _, _ => by simp
  | c, _ :: ps, ⟨⟨g', hg', rfl⟩, hRest⟩, hFirst => by
      subst g'
      obtain ⟨y, hy⟩ := Option.ne_none_iff_exists'.mp (mt List.getLast?_eq_none_iff.mp hFirst)
      have hNext := getVertices_next_inclusive g hP c hy
      intro p hp
      rcases List.mem_cons.mp hp with rfl | hp
      · exact hFirst
      · exact paged_inclusive_ne_nil hP hRest (fun hNil => by simp [hNil] at hNext) p hp

/-- Under an inclusive bound with `2 ≤ P`, the pages from the `j`th matching vertex
hold only matching vertices from the `j`th on, number at most `(N - j) / (P - 1) + 1`,
and after a short page hold all of them. -/
theorem paged_inclusive (hP : 2 ≤ P) : ∀ (ps : List (List Vertex)) (c : Option Uuid) (j : Nat),
    g.getVertices .inclusive ⟨P, t, c⟩ = ((g.matching t).drop j).take P →
    Paged .inclusive P t (· = g) c ps → FullButLast P ps →
    (∀ v ∈ ps.flatten, v ∈ (g.matching t).drop j) ∧
    ps.length ≤ ((g.matching t).length - j) / (P - 1) + 1 ∧
    ∀ p, ps.getLast? = some p → p.length < P → ∀ v ∈ (g.matching t).drop j, v ∈ ps.flatten
  | [], _, _, _, _, _ => ⟨by simp, by simp, fun _ hp => by simp at hp⟩
  | [_], c, j, hc, ⟨⟨_, rfl, hp⟩, _⟩, _ => by
      rw [hc] at hp
      subst hp
      refine ⟨fun v hv => List.mem_of_mem_take (by simpa using hv), by simp, fun p hLast hShort v hv => ?_⟩
      simp only [List.getLast?_singleton, Option.some.injEq] at hLast
      subst hLast
      simpa [take_eq_self_of_length_lt hShort] using hv
  | _ :: q :: ps, c, j, hc, ⟨⟨_, rfl, hp⟩, hRest⟩, ⟨hFull, hFulls⟩ => by
      rw [hc] at hp
      subst hp
      have hRoom : P ≤ (g.matching t).length - j := by simpa using hFull
      obtain ⟨x, hx⟩ : ∃ x, (g.matching t)[j + (P - 1)]? = some x := ⟨_, List.getElem?_eq_getElem (by omega)⟩
      have hCursor : advance c (((g.matching t).drop j).take P) = some x.id := by
        have hLast : (((g.matching t).drop j).take P).getLast? = some x := by
          rw [List.getLast?_eq_getElem?, List.getElem?_take, List.getElem?_drop]
          simp only [List.length_take, List.length_drop, Nat.min_eq_left hRoom]
          rw [if_pos (by omega), hx]
        simp [advance, hLast]
      rw [hCursor] at hRest
      obtain ⟨hSub, hLen, hCover⟩ :=
        paged_inclusive hP (q :: ps) _ (j + (P - 1)) (getVertices_inclusive_at g hx) hRest hFulls
      have hDrops : ((g.matching t).drop j).drop P = ((g.matching t).drop (j + (P - 1))).drop 1 := by
        rw [List.drop_drop, List.drop_drop]
        congr 1
        omega
      have hSubLen : (g.matching t).length - (j + (P - 1)) = (g.matching t).length - j - (P - 1) := by omega
      have hDiv := Nat.div_eq_sub_div (by omega : 0 < P - 1) (by omega : P - 1 ≤ (g.matching t).length - j)
      rw [hSubLen] at hLen
      refine ⟨fun v hv => ?_, by simp only [List.length_cons] at hLen ⊢; omega, fun p hLast hShort v hv => ?_⟩
      · rcases List.mem_append.mp (List.flatten_cons .. ▸ hv) with hv | hv
        · exact List.mem_of_mem_take hv
        · have hv' := hSub v hv
          rw [← List.drop_drop] at hv'
          exact List.mem_of_mem_drop hv'
      · rw [← List.take_append_drop P ((g.matching t).drop j), List.mem_append, hDrops] at hv
        rw [List.flatten_cons, List.mem_append]
        exact hv.imp id fun hv => hCover p (by simpa using hLast) hShort v (List.mem_of_mem_drop hv)

end Inclusive

end IndraDB.Traversal
