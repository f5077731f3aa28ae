import PreforkHttpd.Http.Bounds
import PreforkHttpd.Path.LexicalWalk

/-!
# When a served path stays under the document root

`accept_request` puts the document root before the url, and adds nothing between them and takes
nothing out: no separator, no check for `..`. The path of a served request is therefore under the
root only for some urls.

A path is resolved as a walk over its components (`PreforkHttpd.Path.LexicalWalk`); `Contained p`
says that it ends at the document root or below it. The first component of the url is glued to the
last one of the root, so a url that does not begin with a slash starts at a sibling of the root.
`StaysInside u` is the condition on the url alone, and `contained_iff` says that it is exact:

* the url begins with a slash, or climbs out of its first component;
* what it climbs out of the root it comes down again by the same names.

The index file is appended below where the walk has ended, and no component of the root has its
name, so it makes no difference (`contained_index_iff`).
-/

open Answered LexicalWalk

namespace PreforkHttpd

/-- The move a component of a path stands for. -/
def moveOf (name : List UInt8) : Move (List UInt8) :=
  if name = [] ∨ name = ascii "." then .stay
  else if name = ascii ".." then .up
  else .down name

/-- The moves of a path. -/
def moves (p : List UInt8) : List (Move (List UInt8)) := (p.splitOn slash).map moveOf

/-- Where an absolute path leads. -/
def resolve (p : List UInt8) : List (List UInt8) := walk [] (moves p)

/-- The path leads to the document root, or below it. -/
def Contained (p : List UInt8) : Prop := resolve documentRoot <+: resolve p

/-- The url leads to the document root, or below it, when it is put right behind the root. -/
def StaysInside (u : List UInt8) : Prop :=
  match u.splitOn slash with
  | [] => True
  | first :: rest =>
    (first = [] ∨ 0 < (net (rest.map moveOf)).1) ∧
      (resolve documentRoot).drop (4 - (net (rest.map moveOf)).1) <+: (net (rest.map moveOf)).2

/-! ### Paths and their components -/

/-- A component that is glued to the first one. -/
theorem splitOn_append_of_notMem {xs : List UInt8} (h : slash ∉ xs) (ys : List UInt8) :
    (xs ++ ys).splitOn slash = (ys.splitOn slash).modifyHead (xs ++ ·) := by
  induction xs with
  | nil => cases hys : ys.splitOn slash <;> exact hys
  | cons c xs ih =>
    rw [List.mem_cons, not_or] at h
    rw [List.cons_append, List.splitOn_cons_eq_if_modifyHead,
      if_neg (mt beq_iff_eq.1 (Ne.symm h.1)), ih h.2]
    cases ys.splitOn slash <;> rfl

theorem moves_append_slash (p name : List UInt8) :
    moves (p ++ slash :: name) = moves p ++ moves name := by
  rw [moves, List.splitOn_append_cons_self, List.map_append]
  rfl

/-- A slash at the end makes no difference. -/
theorem resolve_append_slash (p : List UInt8) : resolve (p ++ [slash]) = resolve p := by
  rw [resolve, moves_append_slash]
  exact walk_append_stay [] (moves p)

/-- The index file below a path. -/
theorem resolve_append_index (p : List UInt8) :
    resolve (p ++ ascii "/index.html") = resolve p ++ [ascii "index.html"] := by
  have hindex : ascii "/index.html" = slash :: ascii "index.html" := by decide
  rw [hindex, resolve, moves_append_slash, walk_append]
  rfl

/-- The index file does not decide where a path leads. -/
theorem contained_index_iff (p : List UInt8) :
    Contained (p ++ ascii "/index.html") ↔ Contained p := by
  rw [Contained, Contained, resolve_append_index, List.prefix_concat_iff]
  refine or_iff_right fun h ↦ ?_
  have hmem : ascii "index.html" ∈ resolve documentRoot :=
    h ▸ List.mem_append_right _ (List.mem_singleton_self _)
  exact absurd hmem (by decide)

/-- Where the root and a url behind it lead: the first component of the url is glued to the last
one of the root. -/
theorem resolve_documentRoot_append {u first : List UInt8} {rest : List (List UInt8)}
    (h : u.splitOn slash = first :: rest) :
    resolve (documentRoot ++ u) =
      walk ((resolve documentRoot).dropLast ++ [ascii "test" ++ first]) (rest.map moveOf) := by
  have hlast : documentRoot = ascii "/home/jackwu/Desktop" ++ slash :: ascii "test" := by decide
  have hroot :
      documentRoot ++ u = ascii "/home/jackwu/Desktop" ++ slash :: (ascii "test" ++ u) := by
    rw [hlast, List.append_assoc, List.cons_append]
  have hhead : (ascii "test" ++ first).head? = some 116 := rfl
  have hfirst : moveOf (ascii "test" ++ first) = .down (ascii "test" ++ first) := by
    rw [moveOf, if_neg, if_neg]
    · exact fun hdots ↦ absurd (hdots ▸ hhead) (by decide)
    · rintro (hnil | hdot)
      · exact absurd (hnil ▸ hhead) (by decide)
      · exact absurd (hdot ▸ hhead) (by decide)
  rw [hroot, resolve, moves_append_slash, walk_append, moves, moves,
    splitOn_append_of_notMem (by decide), h, List.modifyHead_cons, List.map_cons, hfirst]
  rfl

/-- **The root and a url behind it.** -/
theorem contained_documentRoot_append_iff (u : List UInt8) :
    Contained (documentRoot ++ u) ↔ StaysInside u := by
  rw [Contained, StaysInside]
  match h : u.splitOn slash with
  | [] => exact absurd h (List.splitOn_ne_nil slash u)
  | first :: rest =>
    have hroot : resolve documentRoot = (resolve documentRoot).dropLast ++ [ascii "test"] := by
      decide
    have hlength : (resolve documentRoot).length = 4 := by decide
    have hsibling : (resolve documentRoot).dropLast ++ [ascii "test" ++ first] =
        resolve documentRoot ↔ first = [] := by
      nth_rewrite 2 [hroot]
      rw [List.append_right_inj, List.singleton_inj, List.append_right_eq_self]
    rw [resolve_documentRoot_append h, prefix_walk_iff List.dropLast_concat, hsibling, hlength]
    rw [List.length_append, List.length_dropLast, hlength]
    rfl

/-! ### Served requests -/

/-- The url that `accept_request` finds in the buffer. -/
def Arrival.url (a : Arrival) : List UInt8 := (urlToken a.buffer.bytes).takeWhile (· ≠ 0)

/-- The url of the request that arrives over `buf`. -/
def requestUrl (buf : CArray buffSize) (reads : List ReadAnswer) : Option (List UInt8) :=
  (requestLine reads 0 [] buf).map Arrival.url

/-- The index file of a url that ends in a slash does not decide where its path leads. -/
theorem contained_requestPath_iff (u : List UInt8) :
    Contained (requestPath u) ↔ Contained (documentRoot ++ u) := by
  rw [requestPath]
  split
  next hslash =>
    obtain ⟨q, hq⟩ := List.getLast?_eq_some_iff.1 hslash
    have hindex : documentRoot ++ u ++ ascii "index.html" = q ++ ascii "/index.html" := by
      rw [hq, List.append_assoc]
      rfl
    rw [hindex, contained_index_iff, hq, Contained, Contained, resolve_append_slash]
  next => exact Iff.rfl

/-- The path left to the caller leads where the url leads. -/
theorem contained_located_iff (fs : FileSystem) (u : List UInt8) :
    Contained (located fs (requestPath u)).2 ↔ StaysInside u := by
  rw [← contained_documentRoot_append_iff, ← contained_requestPath_iff, located]
  split
  next => exact Iff.rfl
  next => exact contained_index_iff _
  next => exact Iff.rfl

/-- **A request that is served** is looked up by its url, and leaves the path it was found under to
the caller. -/
theorem exists_requestUrl_of_success {fs : FileSystem} {l : Locals}
    {filename localPath : CArray buffSize} {w w' : Calls}
    (hok : acceptRequest fs l filename w = .ok ((httpSuccess, localPath), w')) :
    ∃ u, requestUrl l.buf w.reads = some u ∧
      located fs (requestPath u) = (httpSuccess, localPath.cstr) := by
  obtain ⟨a, ha, -, htokens, hanswer, -⟩ := exists_of_acceptRequest_eq_ok (le_refl _) hok
  refine ⟨a.url, by rw [requestUrl, ha]; rfl, ?_⟩
  rw [answer] at hanswer
  split at hanswer
  next =>
    obtain ⟨hcode, rfl⟩ := Prod.mk.inj hanswer
    have hurl : a.url.length < partSize := (List.takeWhile_prefix _).length_le.trans_lt htokens.url
    have hurl0 : 0 ∉ a.url := fun hmem ↦ absurd (List.mem_takeWhile_imp hmem) (by decide)
    rw [← Arrival.url, cstr_overlay_located fs filename hurl0 hurl]
    exact Prod.ext hcode.symm rfl
  next => exact absurd (Prod.mk.inj hanswer).1 (by decide)

/-- **When a served path stays under the document root.** If `accept_request` returns
`HTTP_SUCCESS`, the path it has left to the caller leads to the document root or below it if and
only if the url of the request stays inside. -/
theorem contained_iff {fs : FileSystem} {l : Locals} {filename localPath : CArray buffSize}
    {w w' : Calls} (hok : acceptRequest fs l filename w = .ok ((httpSuccess, localPath), w')) :
    ∃ u, requestUrl l.buf w.reads = some u ∧ (Contained localPath.cstr ↔ StaysInside u) := by
  obtain ⟨u, hu, hlocated⟩ := exists_requestUrl_of_success hok
  refine ⟨u, hu, ?_⟩
  rw [← contained_located_iff fs u, hlocated]

/-- The request for a url, and nothing after it. -/
def get (url : List UInt8) : Calls :=
  Calls.reading ((ascii "GET " ++ url).map .byte ++ [.byte newline])

/-- Its arrival over zeroed memory. -/
def getArrival (url : List UInt8) : Arrival where
  line := ascii "GET " ++ url ++ [newline]
  under := zeroLocals.buf
  rest := []

/-- A file system in which every path is a regular file. -/
def everyFile : FileSystem := fun _ ↦ some (.regular [])

/-- A url right below the document root. -/
theorem contained_iff_below :
    ∃ localPath w', acceptRequest everyFile zeroLocals zeroFilename (get (ascii "/a")) =
        .ok ((httpSuccess, localPath), w') ∧
      ∃ u, requestUrl zeroLocals.buf (get (ascii "/a")).reads = some u ∧
        (Contained localPath.cstr ↔ StaysInside u) := by
  have harrival : requestLine (get (ascii "/a")).reads 0 [] zeroLocals.buf =
      some (getArrival (ascii "/a")) := rfl
  have hok : acceptRequest everyFile zeroLocals zeroFilename (get (ascii "/a")) =
      .ok ((httpSuccess, zeroFilename.overlay (requestPath (ascii "/a") ++ [0])), _) :=
    acceptRequest_of_fits harrival (by decide) ⟨by decide, by decide, by decide⟩ (le_refl _)
  exact ⟨_, _, hok, contained_iff hok⟩

/-- A url that climbs out of the document root. -/
def climbingUrl : List UInt8 := ascii "/../../../../etc/passwd"

/-- It is served. -/
theorem not_contained_of_climbingUrl :
    ∃ localPath w', acceptRequest everyFile zeroLocals zeroFilename (get climbingUrl) =
        .ok ((httpSuccess, localPath), w') ∧ ¬ Contained localPath.cstr := by
  have harrival : requestLine (get climbingUrl).reads 0 [] zeroLocals.buf =
      some (getArrival climbingUrl) := rfl
  have hok : acceptRequest everyFile zeroLocals zeroFilename (get climbingUrl) =
      .ok ((httpSuccess, zeroFilename.overlay (requestPath climbingUrl ++ [0])), _) :=
    acceptRequest_of_fits harrival (by decide) ⟨by decide, by decide, by decide⟩ (le_refl _)
  refine ⟨_, _, hok, ?_⟩
  rw [CArray.cstr_overlay (by decide), CArray.takeWhile_ne_nul (by decide), Contained]
  decide

end PreforkHttpd
