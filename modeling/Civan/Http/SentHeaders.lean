import Civan.Http.Dump

/-!
# Header maps that are built from printed lines

`dump` prints the header map without its `connection`, and the other side puts the lines
into a map of its own, one after the other.  A later line replaces an earlier one of the
same name.
-/

namespace Civan
namespace Http

/-- The lines go into the map in order. -/
def MapType.setAll (fields : List (List UInt8 × List UInt8)) (m : MapType) : MapType :=
  fields.foldl (fun m i => MapType.set i.1 i.2 m) m

section SetAll

variable {key : List UInt8} {fields : List (List UInt8 × List UInt8)} {m : MapType}

theorem setAll_nil : MapType.setAll [] m = m :=
  rfl

theorem setAll_singleton (i : List UInt8 × List UInt8) :
    MapType.setAll [i] m = MapType.set i.1 i.2 m :=
  rfl

theorem setAll_cons (i : List UInt8 × List UInt8) :
    MapType.setAll (i :: fields) m = MapType.setAll fields (MapType.set i.1 i.2 m) :=
  rfl

theorem setAll_append (fields' : List (List UInt8 × List UInt8)) :
    MapType.setAll (fields ++ fields') m = MapType.setAll fields' (MapType.setAll fields m) :=
  List.foldl_append

theorem foldl_setHeader (fields : List (List UInt8 × List UInt8)) (d : HttpRequest) :
    fields.foldl (fun d i => d.setHeader i.1 i.2) d =
      { d with headers := MapType.setAll fields d.headers } := by
  induction fields generalizing d with
  | nil => rfl
  | cons i fields ih =>
    rw [List.foldl_cons, ih]
    rfl

theorem find_setAll_of_pairwise
    (hdistinct : fields.Pairwise fun i j => foldCase i.1 ≠ foldCase j.1) :
    MapType.find key (MapType.setAll fields m) =
      (MapType.find key fields).or (MapType.find key m) := by
  let d : HttpRequest := { HttpRequest.new 0x11 true with headers := m }
  have h : MapType.find key (fields.foldl (fun d i => d.setHeader i.1 i.2) d).headers =
      (MapType.find key fields).or (MapType.find key d.headers) :=
    find_foldl_of_pairwise hdistinct d
  rwa [foldl_setHeader] at h

theorem find_setAll_same (name : List UInt8) (values : List (List UInt8)) :
    MapType.find key (MapType.setAll (values.map fun v => (name, v)) m) =
      if foldCase key = foldCase name then values.getLast?.or (MapType.find key m)
      else MapType.find key m := by
  induction values using List.reverseRecOn with
  | nil => simp [setAll_nil]
  | append_singleton values v ih =>
    rw [List.map_append, setAll_append, List.map_singleton, setAll_singleton, find_set, ih]
    by_cases hkey : foldCase key = foldCase name
    · simp [hkey]
    · rw [if_neg (fun heq => hkey heq.symm), if_neg hkey, if_neg hkey]

end SetAll

section UserFields

variable {key : List UInt8}

theorem find_userFields_of_ne
    (hkey : foldCase key ≠ foldCase (bytesOf "connection")) (headers : MapType) :
    MapType.find key (userFields headers) = MapType.find key headers := by
  induction headers with
  | nil => rfl
  | cons i headers ih =>
    rw [find_cons]
    by_cases hi : foldCase i.1 = foldCase (bytesOf "connection")
    · have hne : foldCase i.1 ≠ foldCase key := by
        rw [hi]
        exact hkey.symm
      rw [userFields, List.filter_cons_of_neg (by simpa using hi), ← userFields, ih, if_neg hne]
    · rw [userFields, List.filter_cons_of_pos (by simpa using hi), ← userFields, find_cons, ih]

theorem find_userFields_connection
    (hkey : foldCase key = foldCase (bytesOf "connection")) (headers : MapType) :
    MapType.find key (userFields headers) = none := by
  rw [find_eq_none_iff]
  intro i hi
  rw [hkey]
  simpa using (List.mem_filter.mp hi).2

/-- The names of a map in order are different. -/
theorem userFields_pairwise {headers : MapType}
    (h : headers.Pairwise fun i j => caseInsensitiveLess i.1 j.1 = true) :
    (userFields headers).Pairwise fun i j => foldCase i.1 ≠ foldCase j.1 := by
  refine (h.filter _).imp ?_
  intro i j hlt heq
  rw [caseInsensitiveLess_irrefl heq] at hlt
  cases hlt

end UserFields

end Http
end Civan
