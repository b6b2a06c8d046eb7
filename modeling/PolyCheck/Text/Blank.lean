/-! The characters that count as blank, and texts without blanks at their ends. -/
namespace PolyCheck.Text

def isBlank (c : Char) : Bool :=
  let n := c.toNat
  (0x09 ≤ n && n ≤ 0x0D) || n == 0x20 || n == 0x85 || n == 0xA0 || n == 0x1680 ||
    (0x2000 ≤ n && n ≤ 0x200A) || n == 0x2028 || n == 0x2029 || n == 0x202F || n == 0x205F ||
    n == 0x3000

def trim (text : String) : String :=
  String.ofList ((text.toList.dropWhile isBlank).reverse.dropWhile isBlank).reverse

/-- Maps the ASCII capitals to small letters and keeps every other character. -/
def lowerAscii (text : String) : String :=
  text.map Char.toLower

/-- A keyword as a setting spells it: ends trimmed, case of ASCII letters ignored. -/
def keyword (text : String) : String :=
  lowerAscii (trim text)

end PolyCheck.Text
