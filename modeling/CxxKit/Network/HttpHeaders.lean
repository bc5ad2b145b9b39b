import Mathlib.Data.List.Basic

/-!
The header options of a request (`detail::set_option_internal`).

A header map compares names without their case and so is a function of the folded names.
`CurrentType` is deduced from the argument: it is `Header` only for a temporary that is not
`const`, and a reference or a `const` type for everything else.  Only `Header` itself matches
the specialisation that merges and sets the flag that a header has been seen.
-/

namespace CxxKit.HttpHeaders

/-- The values by name. -/
def Header := String → Option String

def Header.none : Header := fun _ => .none

/-- `SetHeader` replaces, `UpdateHeader` merges. -/
def updateHeader (session header : Header) : Header := fun name => (header name).or (session name)

/-- How a header is given, and so what `CurrentType` is for it. -/
inductive Category
  /-- a named variable: `Header &` -/
  | lvalue
  /-- a named constant: `const Header &` -/
  | constLvalue
  /-- a temporary: `Header` -/
  | rvalue
  /-- a temporary of type `const Header` -/
  | constRvalue
deriving DecidableEq

/-- `std::is_same<CurrentType, Header>::value`. -/
def Category.isHeader (category : Category) : Bool := category = .rvalue

inductive CurrentOption
  | header (h : Header) (category : Category)
  | other

/-- The header of an option. -/
def CurrentOption.header? : CurrentOption → Option Header
  | .header h _ => some h
  | .other => .none

/-- How the header of an option is given. -/
def CurrentOption.category? : CurrentOption → Option Category
  | .header _ category => some category
  | .other => .none

/-- One option: only `Header` matches the specialisation that merges. -/
def setOption (processedHeader : Bool) (session : Header) : CurrentOption → Header
  | .header h category =>
    if processedHeader && category.isHeader then updateHeader session h else h
  | .other => session

def setOptionInternal : Bool → Header → List CurrentOption → Header
  | _, session, [] => session
  | processedHeader, session, current :: ts =>
    let isHeader := (current.category?.map Category.isHeader).getD false
    setOptionInternal (processedHeader || isHeader) (setOption processedHeader session current) ts

open CurrentOption

/-- The headers of all options, the later ones over the earlier. -/
def union (ts : List CurrentOption) : Header :=
  (ts.filterMap header?).foldl updateHeader .none

variable {ts : List CurrentOption} {cs : List (Option Category)} {processedHeader : Bool}
  {session : Header}

/-! ### Where headers are united -/

theorem updateHeader_none (h : Header) : updateHeader .none h = h :=
  funext fun _ => Option.or_none

theorem setOptionInternal_nil (hts : ts.filterMap header? = []) :
    setOptionInternal processedHeader session ts = session := by
  induction ts generalizing processedHeader with
  | nil => rfl
  | cons t ts ih =>
    cases t with
    | other => exact ih hts
    | header h category => cases hts

theorem length_headers (ts : List CurrentOption) :
    ((ts.map category?).filterMap id).length = (ts.filterMap header?).length := by
  induction ts with
  | nil => rfl
  | cons t ts ih =>
    cases t with
    | other => exact ih
    | header h category => exact congrArg (· + 1) ih

/-- Once a header has been seen, temporaries are merged. -/
theorem setOptionInternal_true (hts : ∀ c, some c ∈ ts.map category? → c = .rvalue) :
    setOptionInternal true session ts = (ts.filterMap header?).foldl updateHeader session := by
  induction ts generalizing session with
  | nil => rfl
  | cons t ts ih =>
    have hrest : setOptionInternal true (setOption true session t) ts = _ :=
      ih fun c hc => hts c (.tail _ hc)
    cases t with
    | other => exact hrest
    | header h category =>
      obtain rfl : category = .rvalue := hts category (.head _)
      exact hrest

/-- The first header is set; the others, if any, are merged into it. -/
theorem setOptionInternal_false (hts : (∀ c, some c ∈ ts.map category? → c = .rvalue) ∨
    (ts.filterMap header?).length ≤ 1) : setOptionInternal false .none ts = union ts := by
  induction ts with
  | nil => rfl
  | cons t ts ih =>
    cases t with
    | other => exact ih (hts.imp_left fun h c hc => h c (.tail _ hc))
    | header h category =>
      have hunion : union (.header h category :: ts) =
          (ts.filterMap header?).foldl updateHeader h :=
        congrArg (List.foldl updateHeader · _) (updateHeader_none h)
      rw [hunion]
      rcases hts with hall | hone
      · obtain rfl : category = .rvalue := hall category (.head _)
        exact setOptionInternal_true fun c hc => hall c (.tail _ hc)
      · have hnil : ts.filterMap header? = [] :=
          List.length_eq_zero_iff.mp (Nat.le_zero.mp (Nat.le_of_succ_le_succ hone))
        rw [hnil]
        exact setOptionInternal_nil hnil

/-! ### Where a header is lost -/

/-- Options given in these ways, of which the first header is `h` and the others are empty. -/
def only (h : Header) : List (Option Category) → List CurrentOption
  | [] => []
  | none :: cs => .other :: only h cs
  | some c :: cs => .header h c :: only .none cs

theorem map_category_only (h : Header) : (only h cs).map category? = cs := by
  induction cs generalizing h with
  | nil => rfl
  | cons c cs ih => cases c <;> exact congrArg (_ :: ·) (ih _)

theorem foldl_only (session : Header) :
    ((only .none cs).filterMap header?).foldl updateHeader session = session := by
  induction cs with
  | nil => rfl
  | cons c cs ih => cases c <;> exact ih

theorem union_only (h : Header) (hcs : cs.filterMap id ≠ []) : union (only h cs) = h := by
  induction cs with
  | nil => exact absurd rfl hcs
  | cons c cs ih =>
    cases c with
    | none => exact ih hcs
    | some c => exact (foldl_only _).trans (updateHeader_none h)

theorem setOptionInternal_none (cs : List (Option Category)) :
    setOptionInternal processedHeader .none (only .none cs) = .none := by
  induction cs generalizing processedHeader with
  | nil => rfl
  | cons c cs ih =>
    cases c with
    | none => exact ih
    | some c =>
      rw [only, setOptionInternal, setOption]
      split <;> exact ih

/-- An empty header that is not merged replaces what was set before. -/
theorem setOptionInternal_lost {c : Category} (hc : some c ∈ cs)
    (hreplaces : (processedHeader && c.isHeader) = false) :
    setOptionInternal processedHeader session (only .none cs) = .none := by
  induction cs generalizing processedHeader session with
  | nil => cases hc
  | cons c' cs ih =>
    cases c' with
    | none => exact ih (by simpa using hc) (by simpa [category?] using hreplaces)
    | some c' =>
      rw [only, setOptionInternal, setOption]
      split
      next hmerged =>
        obtain ⟨rfl, hrvalue⟩ := Bool.and_eq_true_iff.mp hmerged
        refine ih ((List.mem_cons.mp hc).resolve_left ?_) hreplaces
        rintro ⟨⟩
        exact nomatch hmerged.symm.trans hreplaces
      · exact setOptionInternal_none cs

/-- With two headers, one of which is not a temporary, the first is lost. -/
theorem first_lost {c : Category} (h : Header) (hcs : 2 ≤ (cs.filterMap id).length)
    (hc : some c ∈ cs) (hne : c ≠ .rvalue) :
    setOptionInternal false session (only h cs) = .none := by
  induction cs with
  | nil => cases hc
  | cons c' cs ih =>
    cases c' with
    | none => exact ih hcs (by simpa using hc)
    | some c' =>
      change setOptionInternal c'.isHeader h (only .none cs) = .none
      by_cases hfirst : c' = .rvalue
      · refine setOptionInternal_lost ((List.mem_cons.mp hc).resolve_left ?_)
          (by simp [Category.isHeader, hne])
        rintro ⟨⟩
        exact hne hfirst
      · obtain ⟨second, hsecond⟩ : ∃ c, c ∈ cs.filterMap id :=
          List.exists_mem_of_length_pos (Nat.le_of_succ_le_succ hcs)
        refine setOptionInternal_lost (c := second) (by simpa using hsecond) ?_
        simp [Category.isHeader, hfirst]

def accept : Header := fun name => if name = "accept" then some "*/*" else .none

def agent : Header := fun name => if name = "user-agent" then some "kit" else .none

/-- **Header options.** For options given in these ways the session has the union of their
headers, whatever the headers are, exactly if all of them are temporaries that are not `const`
or there is one at most. -/
theorem headers_united_iff (cs : List (Option Category)) :
    (∀ ts, ts.map category? = cs → setOptionInternal false .none ts = union ts) ↔
      (∀ c, some c ∈ cs → c = .rvalue) ∨ (cs.filterMap id).length ≤ 1 := by
  constructor
  · intro hunited
    by_contra hnot
    obtain ⟨hsome, hlength⟩ := not_or.mp hnot
    obtain ⟨c, hc⟩ := not_forall.mp hsome
    obtain ⟨hc, hne⟩ := Classical.not_imp.mp hc
    have hlost := hunited (only accept cs) (map_category_only accept)
    rw [first_lost accept (by omega) hc hne, union_only accept ?_] at hlost
    · exact nomatch congrFun hlost "accept"
    · intro hnil
      rw [hnil] at hlength
      exact hlength (Nat.zero_le 1)
  · rintro hcs ts rfl
    exact setOptionInternal_false (hcs.imp_right fun hone => length_headers ts ▸ hone)

/-- Of two named headers the first is lost. -/
theorem named_header_replaces :
    setOptionInternal false .none [.header accept .lvalue, .header agent .lvalue] "accept" =
        .none ∧
      union [.header accept .lvalue, .header agent .lvalue] "accept" = some "*/*" := by
  decide

end CxxKit.HttpHeaders
