import ProxySplit.Fetchers.Head

namespace ProxySplit

/-- `urllib.parse.urlparse(url).path` of an `http` or `https` url with a plain authority. -/
def urlPath (url : Url) : Except PyExc (List Char) :=
  let url := url.toList.filter fun c => c ∉ ['\t', '\n', '\r']
  let rest := (url.dropWhile (· ≠ ':')).drop 3
  let netloc := rest.takeWhile fun c => c ∉ ['/', '?', '#']
  let path := (rest.drop netloc.length).takeWhile fun c => c ∉ ['?', '#']
  let segment := afterLastSlash path
  if '[' ∈ netloc ↔ ']' ∈ netloc then
    .ok (path.take (path.length - segment.length) ++ segment.takeWhile (· ≠ ';'))
  else .error (.valueError "Invalid IPv6 URL")

/-- `posixpath.splitext(path)[1]`. -/
def extensionOf (path : List Char) : List Char :=
  let name := afterLastSlash path
  let ext := (name.reverse.takeWhile (· ≠ '.')).reverse
  let stem := name.take (name.length - ext.length - 1)
  if '.' ∈ name ∧ stem.any (· ≠ '.') then '.' :: ext else []

/-- The two lists of `is_excluded` with the two functions of Python that it calls: the path of `urlparse`, which
raises for some authorities, and `str.lower`. -/
structure Exclusion where
  noChunkExtensions : List String
  noChunkMimetypes : List String
  urlparsePath : Url → Except PyExc (List Char)
  lower : List Char → List Char

def Exclusion.none : Exclusion := ⟨[], [], urlPath, List.map Char.toLower⟩

def isExcluded (cfg : Exclusion) (url : Url) (ct : String) : Except PyExc Bool := do
  let path ← cfg.urlparsePath url
  let ext := String.ofList (extensionOf (cfg.lower path))
  return ext ≠ "" ∧ ext ∈ cfg.noChunkExtensions ∨
    cfg.noChunkMimetypes.any fun mime => (cfg.lower mime.toList).isPrefixOf (cfg.lower ct.toList)

example : extensionOf "/a.b/disk.iso".toList = ".iso".toList := by decide +kernel

end ProxySplit
