namespace MiniStorage

/-- A std::string is a string of bytes. -/
abbrev Bytes := List UInt8

instance bytesLawfulBEq : LawfulBEq Bytes := inferInstance

end MiniStorage
